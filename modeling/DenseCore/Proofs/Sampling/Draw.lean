/-
What the sampler keeps and what it draws.

One pass over the candidates finds the best of them, the sum of their masses and the
best `k`.  Masses relative to one logit and to another differ by a factor, so the sum
can follow the largest logit as the pass goes.  In the sorted list a candidate is kept
by a condition on the candidates before it alone: few of them for `top_k`, a mass not
far above for `min_p`, little mass in all for `top_p`.  Every kept candidate has a
share of the draw.
-/
import DenseCore.Proofs.Sampling.Candidates
import Mathlib.Tactic.FieldSimp
import Mathlib.Tactic.Ring

namespace DenseCore.Sampling.SamplingParams

open List hiding le_of_lt le_refl le_trans lt_trans not_lt

open DenseCore.Lib

variable {K : Type} [Field K] [LinearOrder K] {f : Functions K}

/-! ### Masses -/

theorem exp_zero (f : Functions K) : f.exp 0 = 1 := by
  have hsquare := f.exp_add 0 0
  have hpos := f.exp_pos 0
  rw [add_zero] at hsquare
  exact mul_left_cancel₀ (ne_of_gt hpos) (by rw [mul_one]; exact hsquare.symm)

theorem mass_pos (f : Functions K) (m : K) (c : SamplingCandidate K) : 0 < mass f m c :=
  f.exp_pos _

theorem mass_eq (f : Functions K) (m : K) (c : SamplingCandidate K) :
    mass f m c = f.exp c.logit * f.exp (-m) := by
  unfold mass
  rw [sub_eq_add_neg, f.exp_add]

theorem mass_rescale (f : Functions K) (m m' : K) (c : SamplingCandidate K) :
    mass f m c * f.exp (m - m') = mass f m' c := by
  unfold mass
  rw [← f.exp_add]
  congr 1
  ring

theorem totalMass_cons (f : Functions K) (m : K) (c : SamplingCandidate K)
    (cs : List (SamplingCandidate K)) :
    totalMass f m (c :: cs) = mass f m c + totalMass f m cs := by
  unfold totalMass
  rw [map_cons, sum_cons]

theorem totalMass_append (f : Functions K) (m : K) (cs cs' : List (SamplingCandidate K)) :
    totalMass f m (cs ++ cs') = totalMass f m cs + totalMass f m cs' := by
  unfold totalMass
  rw [map_append, sum_append]

variable {m cumulative : K} {c : SamplingCandidate K}

variable {cs l : List (SamplingCandidate K)} {k : Nat} {randomVal : K}

theorem totalMass_perm {cs' : List (SamplingCandidate K)} (h : cs.Perm cs') :
    totalMass f m cs = totalMass f m cs' := (h.map _).sum_eq

theorem totalMass_rescale (f : Functions K) (m m' : K) (cs : List (SamplingCandidate K)) :
    totalMass f m cs * f.exp (m - m') = totalMass f m' cs := by
  induction cs with
  | nil => simp [totalMass]
  | cons c rest ih => rw [totalMass_cons, totalMass_cons, add_mul, ih, mass_rescale]

theorem totalMass_nonneg [IsStrictOrderedRing K] (f : Functions K) (m : K) (cs : List (SamplingCandidate K)) :
    0 ≤ totalMass f m cs := by
  induction cs with
  | nil => simp [totalMass]
  | cons c rest ih =>
    rw [totalMass_cons]
    have := mass_pos f m c
    linarith

theorem totalMass_pos [IsStrictOrderedRing K] (h : cs ≠ []) : 0 < totalMass f m cs := by
  cases cs with
  | nil => exact absurd rfl h
  | cons c rest =>
    rw [totalMass_cons]
    have := mass_pos f m c
    have := totalMass_nonneg f m rest
    linarith

/-! ### The pass -/

omit [Field K] in
theorem pushHeap_eq (heap : List (SamplingCandidate K)) (c : SamplingCandidate K) :
    pushHeap heap c = heap.orderedInsert (· > ·) c := by
  unfold pushHeap
  simp only [better_iff]

omit [Field K] in
theorem offer_bestOf {heap : List (SamplingCandidate K)} (h : BestOf k l heap) (hnew : c ∉ l) :
    BestOf k (l ++ [c]) (offer k heap c) := by
  unfold offer
  split
  · rename_i hroom
    rw [pushHeap_eq]
    exact h.insert hnew hroom
  rename_i hfull
  cases heap with
  | nil => exact h.skip (by omega) fun a ha => absurd ha not_mem_nil
  | cons worst rest =>
    have hiff : (worst.logit < c.logit || c.logit = worst.logit && c.tokenId < worst.tokenId) =
        true ↔ c < worst := by
      rw [candidate_lt_iff]
      simp
    show BestOf k (l ++ [c]) (if _ then _ else _)
    split
    · rename_i hbetter
      rw [pushHeap_eq]
      rw [length_cons] at hfull
      exact h.replace hnew (by omega) (hiff.mp hbetter)
    rename_i hworse
    have hle : worst ≤ c := not_lt.mp fun hlt => hworse (hiff.mpr hlt)
    obtain ⟨rest', hperm, -⟩ := h.split
    have hne : worst ≠ c := by
      rintro rfl
      exact hnew (hperm.mem_iff.mp mem_cons_self)
    have hlt : worst < c := lt_of_le_of_ne hle hne
    refine h.skip (by omega) fun a ha => ?_
    rcases mem_cons.mp ha with rfl | ha
    · exact hlt
    · exact lt_trans ((pairwise_cons.mp h.sorted).1 a ha) hlt

/-- What the pass knows of the candidates it has met. -/
structure PassOf (f : Functions K) (k active : Nat) (l : List (SamplingCandidate K)) (s : Pass K) :
    Prop where
  best : l.min? = some ⟨s.maxLogit, s.bestToken⟩
  sum : s.sumExp = totalMass f s.maxLogit l
  heap : k < active → BestOf k l s.heap

omit [Field K] in
theorem min?_snoc {b : SamplingCandidate K} (h : l.min? = some b)
    (c : SamplingCandidate K) : (l ++ [c]).min? = some (min b c) := by
  obtain ⟨hmem, hle⟩ := min?_eq_some_iff.mp h
  rw [min?_eq_some_iff]
  constructor
  · rw [mem_append, mem_singleton]
    rcases min_choice b c with hb | hc
    · rw [hb]
      exact Or.inl hmem
    · exact Or.inr hc
  intro a ha
  rcases mem_append.mp ha with ha | ha
  · exact le_trans (min_le_left b c) (hle a ha)
  rw [mem_singleton.mp ha]
  exact min_le_right b c

theorem passStep_none (f : Functions K) (k active : Nat) (c : SamplingCandidate K) :
    ∃ s, passStep f k active none c = some s ∧ PassOf f k active [c] s := by
  refine ⟨_, rfl, rfl, ?_, ?_⟩
  · show (1 : K) = totalMass f c.logit [c]
    simp [totalMass, mass, exp_zero]
  intro hlimited
  show BestOf k [c] (if k < active then offer k [] c else [])
  rw [if_pos hlimited]
  exact offer_bestOf (BestOf.nil k) not_mem_nil

/-- A new best candidate changes the scale of the sum, another one is added to it. -/
theorem passStep_some {active : Nat} {s : Pass K} (h : PassOf f k active l s) (hnew : c ∉ l) :
    ∃ s', passStep f k active (some s) c = some s' ∧ PassOf f k active (l ++ [c]) s' := by
  have hbest := min?_snoc h.best c
  have hheap : k < active →
      BestOf k (l ++ [c]) (if k < active then offer k s.heap c else s.heap) := by
    intro hlimited
    rw [if_pos hlimited]
    exact offer_bestOf (h.heap hlimited) hnew
  by_cases hlarger : s.maxLogit < c.logit
  · refine ⟨_, if_pos hlarger, ?_, ?_, hheap⟩
    · have hlt : c < ⟨s.maxLogit, s.bestToken⟩ := candidate_lt_iff.mpr (Or.inl hlarger)
      rw [hbest, min_eq_right (le_of_lt hlt)]
    show s.sumExp * f.exp (s.maxLogit - c.logit) + 1 = totalMass f c.logit (l ++ [c])
    rw [h.sum, totalMass_rescale, totalMass_append]
    simp [totalMass, mass, exp_zero]
  refine ⟨_, if_neg hlarger, ?_, ?_, hheap⟩
  · rw [hbest]
    congr 1
    by_cases htie : c.logit = s.maxLogit ∧ c.tokenId < s.bestToken
    · have hlt : c < ⟨s.maxLogit, s.bestToken⟩ := candidate_lt_iff.mpr (Or.inr htie)
      rw [min_eq_right (le_of_lt hlt), if_pos htie, ← htie.1]
    have hle : ⟨s.maxLogit, s.bestToken⟩ ≤ c := by
      refine not_lt.mp fun hlt => ?_
      rcases candidate_lt_iff.mp hlt with hlogit | heq
      · exact hlarger hlogit
      · exact htie heq
    rw [min_eq_left hle, if_neg htie]
  show s.sumExp + f.exp (c.logit - s.maxLogit) = totalMass f s.maxLogit (l ++ [c])
  rw [h.sum, totalMass_append]
  simp [totalMass, mass]

/-- **The pass knows the best candidate, the sum of the masses and the best `k`.** -/
theorem foldl_passStep (f : Functions K) (k active : Nat) (hne : l ≠ []) (hnodup : l.Nodup) :
    ∃ s, l.foldl (passStep f k active) none = some s ∧ PassOf f k active l s := by
  induction l using List.reverseRecOn with
  | nil => exact absurd rfl hne
  | append_singleton l c ih =>
    rw [foldl_append, foldl_cons, foldl_nil]
    obtain ⟨hl, -, hdisjoint⟩ := nodup_append.mp hnodup
    have hnew : c ∉ l := fun hc => hdisjoint c hc c (mem_singleton.mpr rfl) rfl
    rcases eq_nil_or_concat l with rfl | ⟨l', c', rfl⟩
    · exact passStep_none f k active c
    obtain ⟨s, hs, hpass⟩ := ih (by simp) hl
    rw [hs]
    exact passStep_some hpass hnew

/-! ### The draw -/

theorem pick_mem {t : Nat}
    (h : pick f m randomVal cumulative cs = some t) : ∃ c ∈ cs, c.tokenId = t := by
  induction cs generalizing cumulative with
  | nil => simp [pick] at h
  | cons c rest ih =>
    rw [pick] at h
    split at h
    · exact ⟨c, mem_cons_self, Option.some.inj h⟩
    obtain ⟨c', hc', ht⟩ := ih h
    exact ⟨c', mem_cons_of_mem c hc', ht⟩

theorem pick_of_share [IsStrictOrderedRing K] {before : List (SamplingCandidate K)} (after : List (SamplingCandidate K))
    (hlow : cumulative + totalMass f m before < randomVal)
    (hhigh : randomVal ≤ cumulative + totalMass f m before + mass f m c) :
    pick f m randomVal cumulative (before ++ c :: after) = some c.tokenId := by
  induction before generalizing cumulative with
  | nil =>
    rw [nil_append, pick]
    simp only [totalMass, map_nil, sum_nil, add_zero] at hhigh
    exact if_pos hhigh
  | cons b before ih =>
    rw [totalMass_cons, ← add_assoc] at hlow hhigh
    have hpast : ¬ randomVal ≤ cumulative + mass f m b := by
      have := totalMass_nonneg f m before
      intro hle
      linarith
    rw [cons_append, pick]
    simp only [if_neg hpast]
    exact ih hlow hhigh

theorem draw_mem (m fraction : K) {front : SamplingCandidate K}
    (hfront : front ∈ cs) : ∃ c ∈ cs, c.tokenId = draw f m fraction cs front.tokenId := by
  unfold draw
  split
  · cases hpick : pick f m (fraction * totalMass f m cs) 0 cs with
    | none => exact ⟨front, hfront, rfl⟩
    | some t => exact pick_mem hpick
  · exact ⟨front, hfront, rfl⟩

/-- **Every candidate that is kept can be drawn.** -/
theorem draw_every [IsStrictOrderedRing K] (m : K) (hc : c ∈ cs) (front : Nat) :
    ∃ fraction, 0 ≤ fraction ∧ fraction < 1 ∧ draw f m fraction cs front = c.tokenId := by
  obtain ⟨before, after, rfl⟩ := append_of_mem hc
  have hmass := mass_pos f m c
  have hbefore := totalMass_nonneg f m before
  have hafter := totalMass_nonneg f m after
  have htotal : 0 < totalMass f m (before ++ c :: after) := totalMass_pos (by simp)
  have hsum : totalMass f m (before ++ c :: after) =
      totalMass f m before + (mass f m c + totalMass f m after) := by
    rw [totalMass_append, totalMass_cons]
  -- aim at the middle of the share
  refine ⟨(totalMass f m before + mass f m c / 2) / totalMass f m (before ++ c :: after),
    ?_, ?_, ?_⟩
  · exact div_nonneg (by linarith) (le_of_lt htotal)
  · rw [div_lt_one htotal, hsum]
    linarith
  unfold draw
  rw [if_pos htotal, div_mul_cancel₀ _ (ne_of_gt htotal),
    pick_of_share after (by linarith) (by linarith)]
  rfl

/-! ### The cuts -/

/-- Up to `top_p` a candidate is kept if the mass before it stays below the cutoff. -/
theorem mem_cutTopP [IsStrictOrderedRing K] {cutoffMass : K} (hsorted : cs.Pairwise (· < ·)) :
    c ∈ cutTopP f m cutoffMass cumulative cs ↔
      c ∈ cs ∧ (rank cs c = 0 ∨ cumulative + totalMass f m (cs.filter (· < c)) < cutoffMass) := by
  induction cs generalizing cumulative with
  | nil => simp [cutTopP]
  | cons a rest ih =>
    obtain ⟨hafter, hrest⟩ := pairwise_cons.mp hsorted
    have hfirst : rank (a :: rest) a = 0 := by
      rw [rank_eq_zero_iff_forall_le]
      intro b hb
      rcases mem_cons.mp hb with rfl | hb
      · exact le_refl _
      · exact le_of_lt (hafter b hb)
    -- for a later candidate `a` is one of those before it
    have hlater : ∀ c ∈ rest, rank (a :: rest) c ≠ 0 ∧
        cumulative + totalMass f m ((a :: rest).filter (· < c)) =
          cumulative + mass f m a + totalMass f m (rest.filter (· < c)) := by
      intro c hc
      have hlt := hafter c hc
      refine ⟨fun hzero => not_le_of_gt hlt (rank_eq_zero_iff_forall_le.mp hzero a mem_cons_self), ?_⟩
      rw [filter_cons_of_pos (by simpa using hlt), totalMass_cons, add_assoc]
    rw [cutTopP]
    split
    · rename_i hreached
      rw [mem_singleton]
      constructor
      · rintro rfl
        exact ⟨mem_cons_self, Or.inl hfirst⟩
      rintro ⟨hc, hkept⟩
      rcases mem_cons.mp hc with rfl | hc
      · rfl
      obtain ⟨hrank, hmass⟩ := hlater c hc
      rcases hkept with hzero | hbelow
      · exact absurd hzero hrank
      rw [hmass] at hbelow
      have := totalMass_nonneg f m (rest.filter (· < c))
      linarith
    · rename_i hbelow
      rw [mem_cons, ih hrest, mem_cons]
      constructor
      · rintro (rfl | ⟨hc, hkept⟩)
        · exact ⟨Or.inl rfl, Or.inl hfirst⟩
        refine ⟨Or.inr hc, Or.inr ?_⟩
        rw [(hlater c hc).2]
        rcases hkept with hzero | hkept
        · have hnone : rest.filter (· < c) = [] := by
            rw [filter_eq_nil_iff]
            intro u hu
            simpa using rank_eq_zero_iff_forall_le.mp hzero u hu
          rw [hnone]
          simpa [totalMass] using hbelow
        · exact hkept
      rintro ⟨hc, hkept⟩
      rcases hc with rfl | hc
      · exact Or.inl rfl
      obtain ⟨hrank, hmass⟩ := hlater c hc
      rw [hmass] at hkept
      exact Or.inr ⟨hc, Or.inr (hkept.resolve_left hrank)⟩

end DenseCore.Sampling.SamplingParams
