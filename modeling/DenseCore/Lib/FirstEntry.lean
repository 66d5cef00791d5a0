/-
Registers that keep the first thing entered.

A loop carries a register that is blank at first and takes what a turn enters only while
it is blank, so at the end it shows the first entry of all.  When two such registers share
a field for the author, that field names whoever filled a register last: the author of the
first entry in one of them, unless the other is filled after it.
-/
import Mathlib.Data.List.Induction

namespace DenseCore.Lib

open List

variable {S T α β ι : Type*} [DecidableEq α] [DecidableEq β] {step : S → T → S}
  {register : S → α} {blank : α} {entry : S → T → α}

/-- A turn fills the register only while it is blank; a blank entry leaves it so. -/
def FirstEntry (step : S → T → S) (register : S → α) (blank : α) (entry : S → T → α) : Prop :=
  ∀ s t, register (step s t) = if register s = blank then entry s t else register s

namespace FirstEntry

theorem keeps (h : FirstEntry step register blank entry) (l : List T) :
    ∀ s, register s ≠ blank → register (l.foldl step s) = register s := by
  induction l with
  | nil => intro s _; rfl
  | cons t rest ih =>
    intro s hs
    have hstep : register (step s t) = register s := by rw [h s t, if_neg hs]
    rw [foldl_cons, ih _ (by rw [hstep]; exact hs), hstep]

/-- **The first entry** is what the register shows at the end. -/
theorem exists_entry (h : FirstEntry step register blank entry) (l : List T) :
    ∀ s, register s = blank → register (l.foldl step s) ≠ blank →
      ∃ before t rest, l = before ++ t :: rest ∧ register (before.foldl step s) = blank ∧
        entry (before.foldl step s) t = register (l.foldl step s) := by
  induction l with
  | nil => intro s hs hl; exact absurd hs hl
  | cons t rest ih =>
    intro s hs hl
    have hstep : register (step s t) = entry s t := by rw [h s t, if_pos hs]
    by_cases ht : entry s t = blank
    · obtain ⟨before, t', rest', rfl, hblank, hentry⟩ := ih _ (hstep.trans ht) hl
      exact ⟨t :: before, t', rest', rfl, hblank, hentry⟩
    have hkept := h.keeps rest (step s t) (by rw [hstep]; exact ht)
    exact ⟨[], t, rest, rfl, hs, (hkept.trans hstep).symm⟩

theorem eq_blank_iff (h : FirstEntry step register blank entry) (l : List T) {s : S}
    (hs : register s = blank) :
    register (l.foldl step s) = blank ↔
      ∀ before t rest, l = before ++ t :: rest → entry (before.foldl step s) t = blank := by
  induction l using List.reverseRecOn with
  | nil => simp [hs]
  | append_singleton l x ih =>
    have hstep := h (l.foldl step s) x
    rw [foldl_append]
    refine ⟨?_, ?_⟩
    · intro hend before t rest hsplit
      have hl : register (l.foldl step s) = blank := by
        by_contra hfilled
        exact hfilled (((hstep.trans (if_neg hfilled)).symm).trans hend)
      obtain rfl | ⟨last, hrest⟩ := rest.eq_nil_or_concat
      · obtain ⟨rfl, hx⟩ := append_inj' hsplit rfl
        obtain rfl : x = t := by simpa using hx
        exact (hstep.trans (if_pos hl)).symm.trans hend
      obtain ⟨y, rfl⟩ := hrest
      rw [concat_eq_append, ← cons_append, ← append_assoc] at hsplit
      obtain ⟨rfl, -⟩ := append_inj' hsplit rfl
      exact ih.mp hl before t last rfl
    intro hall
    have hl : register (l.foldl step s) = blank :=
      ih.mpr fun before t rest hsplit => hall before t (rest ++ [x]) (by rw [hsplit]; simp)
    exact (hstep.trans (if_pos hl)).trans (hall l x [] rfl)

end FirstEntry

/-- Two registers, and a field with the name of the turn that filled one of them last. -/
structure SharedAuthor (step : S → T → S) (register : S → α) (blank : α) (entry : S → T → α)
    (register' : S → β) (blank' : β) (entry' : S → T → β) (author : S → ι) (name : T → ι) :
    Prop where
  first : FirstEntry step register blank entry
  second : FirstEntry step register' blank' entry'
  author : ∀ s t, author (step s t) =
    if register s = blank ∧ entry s t ≠ blank ∨ register' s = blank' ∧ entry' s t ≠ blank' then
      name t
    else author s

namespace SharedAuthor

variable {register' : S → β} {blank' : β} {entry' : S → T → β} {author : S → ι} {name : T → ι}

theorem keeps_author
    (h : SharedAuthor step register blank entry register' blank' entry' author name) (l : List T) :
    ∀ s, register s ≠ blank →
      (∀ before t rest, l = before ++ t :: rest → register' (before.foldl step s) = blank' →
        entry' (before.foldl step s) t = blank') →
      author (l.foldl step s) = author s := by
  induction l with
  | nil => intro s _ _; rfl
  | cons t rest ih =>
    intro s hs hquiet
    have hfilled : register (step s t) ≠ blank := by
      rw [h.first s t, if_neg hs]
      exact hs
    have hsame : author (step s t) = author s := by
      rw [h.author s t, if_neg]
      rintro (⟨hblank, -⟩ | ⟨hblank, hentry⟩)
      · exact hs hblank
      · exact hentry (hquiet [] t rest rfl hblank)
    rw [foldl_cons, ih _ hfilled, hsame]
    intro before t' rest' hsplit
    exact hquiet (t :: before) t' rest' (by rw [hsplit]; rfl)

end SharedAuthor

end DenseCore.Lib
