/-
What is left of a text when its reasoning is cut out.

The loop looks for the tags in the lower-case text and cuts the text at the places it
finds.  A part of the text that no cut touches is left whole (`Spared`), with pieces of
what stood around it.
-/
import DenseCore.Server.ToolParser

namespace DenseCore.Server

open List

open Lib (Bytes literal)
open Lib.Strings (index)

/-- The text `t` between `x` and `after` is touched by no block: the next block begins
behind it, or ends before it and `t` is spared in what follows. -/
inductive Spared (lower : Char → Char) (t after : Bytes) : Bytes → Prop
  | here {x : Bytes}
      (h : ∀ start, index (literal "<think>") (toLower lower (x ++ (t ++ after))) = some start →
        x.length + t.length ≤ start) : Spared lower t after x
  | block {x : Bytes} {start stop : Nat}
      (hstart : index (literal "<think>") (toLower lower (x ++ (t ++ after))) = some start)
      (hstop : index (literal "</think>")
        (toLower lower ((x ++ (t ++ after)).drop (start + 7))) = some stop)
      (hend : start + 7 + (stop + 8) ≤ x.length)
      (h : Spared lower t after (x.drop (start + 7 + (stop + 8)))) : Spared lower t after x

variable {s u : Bytes} {lower : Char → Char}

variable {i j fuel : Nat} {acc r : ReasoningSplit}

theorem slice_eq (h : slice s i j = some u) : i ≤ j ∧ j ≤ s.length ∧ u = (s.take j).drop i := by
  unfold slice at h
  split at h
  · rename_i hij
    exact ⟨hij.1, hij.2, (Option.some.inj h).symm⟩
  · cases h

theorem slice_front (h : slice s 0 j = some u) : j ≤ s.length ∧ u = s.take j := (slice_eq h).2

theorem slice_back (h : slice s i s.length = some u) : i ≤ s.length ∧ u = s.drop i := by
  obtain ⟨hi, -, hu⟩ := slice_eq h
  rw [take_length] at hu
  exact ⟨hi, hu⟩

theorem splitReasoningLoop_cases {rest : Bytes}
    (h : splitReasoningLoop lower (fuel + 1) rest acc = some r) :
    (index (literal "<think>") (toLower lower rest) = none ∧ r.content = acc.content ++ rest) ∨
      ∃ start, index (literal "<think>") (toLower lower rest) = some start ∧ start ≤ rest.length ∧
        (index (literal "</think>") (toLower lower (rest.drop (start + 7))) = none ∧
            r.content = acc.content ++ rest.take start ∨
          ∃ stop acc', index (literal "</think>") (toLower lower (rest.drop (start + 7))) = some stop ∧
            acc'.content = acc.content ++ rest.take start ∧
              splitReasoningLoop lower fuel (rest.drop (start + 7 + (stop + 8))) acc' = some r) := by
  rw [splitReasoningLoop] at h
  cases hstart : index (literal "<think>") (toLower lower rest) with
  | none =>
    rw [hstart] at h
    cases h
    exact Or.inl ⟨rfl, rfl⟩
  | some start =>
    rw [hstart] at h
    simp only [bind, Option.bind_eq_some_iff] at h
    obtain ⟨before, hbefore, afterOpen, hafter, h⟩ := h
    obtain ⟨hle, rfl⟩ := slice_front hbefore
    obtain ⟨-, rfl⟩ := slice_back hafter
    refine Or.inr ⟨start, rfl, hle, ?_⟩
    cases hstop : index (literal "</think>") (toLower lower (rest.drop (start + 7))) with
    | none =>
      rw [hstop] at h
      cases h
      exact Or.inl ⟨rfl, rfl⟩
    | some stop =>
      rw [hstop] at h
      simp only [Option.bind_eq_some_iff] at h
      obtain ⟨block, hblock, rest', hrest, h⟩ := h
      obtain ⟨-, rfl⟩ := slice_back hrest
      rw [drop_drop] at h
      exact Or.inr ⟨stop, _, rfl, rfl, h⟩

theorem splitReasoningLoop_content (fuel : Nat) :
    ∀ (rest : Bytes) (acc r : ReasoningSplit), splitReasoningLoop lower fuel rest acc = some r →
      ∃ y, r.content = acc.content ++ y ∧ ∀ b ∈ y, b ∈ rest := by
  induction fuel with
  | zero =>
    intro rest acc r h
    cases h
  | succ fuel ih =>
    intro rest acc r h
    rcases splitReasoningLoop_cases h with ⟨-, hr⟩ | ⟨start, -, -, ⟨-, hr⟩ | ⟨stop, acc', -, hacc, h⟩⟩
    · exact ⟨rest, hr, fun b hb => hb⟩
    · exact ⟨rest.take start, hr, fun b hb => mem_of_mem_take hb⟩
    obtain ⟨y, hy, hbytes⟩ := ih _ _ _ h
    refine ⟨rest.take start ++ y, by rw [hy, hacc, append_assoc], fun b hb => ?_⟩
    rcases List.mem_append.mp hb with hb | hb
    · exact mem_of_mem_take hb
    · exact mem_of_mem_drop (hbytes b hb)

/-- **What is spared is left whole.** -/
theorem Spared.content {t after x : Bytes} (hspared : Spared lower t after x)
    (h : splitReasoningLoop lower fuel (x ++ (t ++ after)) acc = some r) :
    ∃ x' after', r.content = acc.content ++ (x' ++ (t ++ after')) ∧ (∀ b ∈ x', b ∈ x) ∧
      ∀ b ∈ after', b ∈ after := by
  induction hspared generalizing fuel acc with
  | @here x hhere =>
    cases fuel with
    | zero => cases h
    | succ fuel =>
      have htake : ∀ start, x.length + t.length ≤ start →
          (x ++ (t ++ after)).take start = x ++ (t ++ after.take (start - (x.length + t.length))) := by
        intro start hle
        rw [take_append, take_append, take_of_length_le (by omega), take_of_length_le (by omega)]
        congr 3
        omega
      rcases splitReasoningLoop_cases h with
        ⟨-, hr⟩ | ⟨start, hstart, -, ⟨-, hr⟩ | ⟨stop, acc', -, hacc, h⟩⟩
      · exact ⟨x, after, hr, fun b hb => hb, fun b hb => hb⟩
      · rw [htake start (hhere start hstart)] at hr
        exact ⟨x, _, hr, fun b hb => hb, fun b hb => mem_of_mem_take hb⟩
      have hle := hhere start hstart
      rw [htake start hle] at hacc
      obtain ⟨y, hy, hbytes⟩ := splitReasoningLoop_content _ _ _ _ h
      refine ⟨x, after.take (start - (x.length + t.length)) ++ y, ?_, fun b hb => hb,
        fun b hb => ?_⟩
      · rw [hy, hacc]
        simp
      rcases List.mem_append.mp hb with hb | hb
      · exact mem_of_mem_take hb
      have hdrop := hbytes b hb
      rw [← append_assoc, drop_append, drop_eq_nil_of_le
        (by simp only [length_append]; omega), nil_append] at hdrop
      exact mem_of_mem_drop hdrop
  | @block x start stop hstart hstop hend _ ih =>
    cases fuel with
    | zero => cases h
    | succ fuel =>
      rcases splitReasoningLoop_cases h with
        ⟨hnone, -⟩ | ⟨start', hstart', -, hcases⟩
      · rw [hstart] at hnone
        cases hnone
      obtain rfl : start = start' := Option.some.inj (hstart.symm.trans hstart')
      rcases hcases with ⟨hnone, -⟩ | ⟨stop', acc', hstop', hacc, h⟩
      · rw [hstop] at hnone
        cases hnone
      obtain rfl : stop = stop' := Option.some.inj (hstop.symm.trans hstop')
      rw [drop_append_of_le_length hend] at h
      obtain ⟨x', after', hr, hx, hafter⟩ := ih h
      refine ⟨x.take start ++ x', after', ?_, fun b hb => ?_, hafter⟩
      · rw [hr, hacc, take_append_of_le_length (by omega)]
        simp
      rcases List.mem_append.mp hb with hb | hb
      · exact mem_of_mem_take hb
      · exact mem_of_mem_drop (hx b hb)

end DenseCore.Server
