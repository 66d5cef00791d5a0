/-
What requests and progress reports write.

An arriving request becomes one more group, with the next id and with the cached
prefix the lookup found for it; a departing one takes its id out of every place.  A
report writes the group of one sequence, so the queue keeps its ids and its order.
-/
import DenseCore.Proofs.Runtime.KnownIds
import DenseCore.Proofs.Memory.PrefixReuse

namespace DenseCore

open List
open Function (update)

open BlockManager

namespace Scheduler

variable {σ : Type} {id : Int}

/-! ### Departure -/

theorem removeRequest_off (s : Scheduler σ) (id : Int) (finished : Bool) :
    Off s (s.removeRequest id finished) id := by
  have hstatus : ∀ st, Off s (s.setStatus id st) id := fun _ =>
    ⟨rfl, rfl, fun _ hx => Or.inl hx, fun _ hx => Or.inl hx, fun _ _ => rfl, fun _ _ => rfl,
      fun _ _ => rfl⟩
  unfold removeRequest
  dsimp only
  split
  · exact (hstatus _).trans (cleanupSequenceState_off _ _ _ _)
  · exact cleanupSequenceState_off _ _ _ _

section RemoveRequest

variable (s : Scheduler σ) (id : Int) (finished : Bool)

@[simp] theorem removeRequest_blockManager :
    (s.removeRequest id finished).blockManager = s.blockManager := by
  unfold removeRequest; dsimp only; split <;> rfl

@[simp] theorem removeRequest_waitingQueue : (s.removeRequest id finished).waitingQueue =
    s.waitingQueue.filter fun g => g.sequenceId ≠ id := by
  unfold removeRequest; dsimp only; split <;> rfl

@[simp] theorem removeRequest_runningSeqs : (s.removeRequest id finished).runningSeqs =
    s.runningSeqs.filter fun x => x ≠ id := by
  unfold removeRequest; dsimp only; split <;> rfl

@[simp] theorem removeRequest_swappedSeqs : (s.removeRequest id finished).swappedSeqs =
    s.swappedSeqs.filter fun x => x ≠ id := by
  unfold removeRequest; dsimp only; split <;> rfl

@[simp] theorem removeRequest_nextSeqId :
    (s.removeRequest id finished).nextSeqId = s.nextSeqId := (removeRequest_off s id finished).nextSeqId

end RemoveRequest

/-! ### One group of the queue -/

attribute [local simp] modifyWaiting

theorem modifyWaiting_ids (id : Int) (f : SequenceGroup → SequenceGroup)
    (hid : ∀ g, (f g).sequenceId = g.sequenceId) (gs : List SequenceGroup) :
    (modifyWaiting id f gs).map (·.sequenceId) = gs.map (·.sequenceId) := by
  induction gs with
  | nil => rfl
  | cons g gs ih =>
    unfold modifyWaiting
    split
    · rw [map_cons, map_cons, hid]
    · rw [map_cons, map_cons, ih]

theorem modifyWaiting_shared (f : SequenceGroup → SequenceGroup)
    (hsh : ∀ g, (f g).sharedBlockIds = g.sharedBlockIds) (gs : List SequenceGroup) :
    sharedOf (modifyWaiting id f gs) = sharedOf gs := by
  induction gs with
  | nil => rfl
  | cons g gs ih =>
    unfold modifyWaiting
    split
    · rw [sharedOf_cons, sharedOf_cons, hsh]
    · rw [sharedOf_cons, sharedOf_cons, ih]

variable {f : SequenceGroup → SequenceGroup} {gs : List SequenceGroup} {g : SequenceGroup}

theorem modifyWaiting_mem {g' : SequenceGroup} (h : g' ∈ modifyWaiting id f gs) : g' ∈ gs ∨
      ∃ g, gs.find? (fun g => g.sequenceId = id) = some g ∧ g' = f g := by
  induction gs with
  | nil => exact Or.inl h
  | cons g gs ih =>
    unfold modifyWaiting at h
    split at h
    · rename_i heq
      rcases mem_cons.mp h with rfl | hold
      · exact Or.inr ⟨g, by simp [heq], rfl⟩
      · exact Or.inl (mem_cons_of_mem _ hold)
    rename_i hne
    rcases mem_cons.mp h with rfl | hrest
    · exact Or.inl mem_cons_self
    rcases ih hrest with hold | ⟨g₀, hfind, heq⟩
    · exact Or.inl (mem_cons_of_mem _ hold)
    refine Or.inr ⟨g₀, ?_, heq⟩
    rw [find?_cons_of_neg (by simpa using hne)]
    exact hfind

theorem modifyWaiting_mem_other
    (hne : g.sequenceId ≠ id) (hid : ∀ g, (f g).sequenceId = g.sequenceId)
    (gs : List SequenceGroup) : g ∈ modifyWaiting id f gs ↔ g ∈ gs := by
  induction gs with
  | nil => rfl
  | cons b gs ih =>
    unfold modifyWaiting
    split
    · rename_i heq
      have h₁ : g ≠ f b := by
        rintro rfl
        exact hne ((hid b).trans heq)
      have h₂ : g ≠ b := by
        rintro rfl
        exact hne heq
      rw [mem_cons, mem_cons]
      simp [h₁, h₂]
    · rw [mem_cons, mem_cons, ih]

theorem modifyWaiting_num {left : Int} (hnodup : (gs.map (·.sequenceId)).Nodup)
    (hg : g ∈ modifyWaiting id (fun b => { b with numTokensToProcess := left }) gs)
    (heq : g.sequenceId = id) : g.numTokensToProcess = left := by
  induction gs with
  | nil => simp [modifyWaiting] at hg
  | cons b gs ih =>
    rw [map_cons, nodup_cons] at hnodup
    unfold modifyWaiting at hg
    split at hg
    · rename_i hb
      rcases mem_cons.mp hg with rfl | hold
      · rfl
      · exact absurd (hb.trans heq.symm ▸ mem_map_of_mem hold) hnodup.1
    rename_i hb
    rcases mem_cons.mp hg with rfl | hold
    · exact absurd heq hb
    · exact ih hnodup.2 hold

/-! ### Arrival -/

theorem findLongest_cached (m : BlockManager σ) (salt : UInt64) (ts : Option (List Int32)) (n : Int)
    (req : Bool) (v : Option (List σ → Bool)) :
    let found := (m.findLongestCachedPrefixWithVerification salt ts n req v).1
    found.cachedTokens = blockSlots * found.cachedBlockIds.length ∧
      (0 < n → (blockSlots : Int) * found.cachedBlockIds.length < n) ∧
      (n ≤ 0 → found.cachedBlockIds = []) := by
  cases ts with
  | none => exact ⟨by simp [findLongestCachedPrefixWithVerification],
      by simp [findLongestCachedPrefixWithVerification],
      by simp [findLongestCachedPrefixWithVerification]⟩
  | some ts =>
    refine ⟨?_, (findLongest_found m salt ts n req v).2⟩
    unfold findLongestCachedPrefixWithVerification
    dsimp only
    split
    · simp
    split
    · simp
    · rw [Int.mul_comm]

/-- `s'` is `s` with one more request, whose group is `g`. -/
structure Arrives (s s' : Scheduler σ) (g : SequenceGroup) (promptLen : Int) (allow cached : Bool) :
    Prop where
  queue : s'.waitingQueue = s.waitingQueue ++ [g]
  sequenceId : g.sequenceId = s.nextSeqId
  custody : ∀ held, Custody s.blockManager held → Custody s'.blockManager (g.sharedBlockIds ++ held)
  nextSeqId : s'.nextSeqId = s.nextSeqId + 1
  config : s'.config = s.config
  running : s'.runningSeqs = s.runningSeqs
  swapped : s'.swappedSeqs = s.swappedSeqs
  blocks : s'.seqBlockIds = s.seqBlockIds
  status : s'.seqStatus = update s.seqStatus s.nextSeqId (some .waiting)
  generated : s'.seqGeneratedTokens = update s.seqGeneratedTokens s.nextSeqId (some 0)
  context : s'.seqContextLen = update s.seqContextLen s.nextSeqId
    (some (blockSlots * g.sharedBlockIds.length : Int))
  prompt : s'.seqPromptLen = update s.seqPromptLen s.nextSeqId (some promptLen)
  allow : s'.seqAllowChunkedPrefill = update s.seqAllowChunkedPrefill s.nextSeqId (some allow)
  prefixLen : g.sharedPrefixLen = blockSlots * g.sharedBlockIds.length
  remaining : g.numTokensToProcess = promptLen - blockSlots * g.sharedBlockIds.length
  short : 0 < promptLen → (blockSlots : Int) * g.sharedBlockIds.length < promptLen
  long : promptLen ≤ 0 → g.sharedBlockIds = []
  uncached : cached = false → g.sharedBlockIds = []

theorem Arrives.mem_queue {s s' : Scheduler σ} {g g' : SequenceGroup} {promptLen : Int}
    {allow cached : Bool} (hnew : Arrives s s' g promptLen allow cached)
    (hg' : g' ∈ s'.waitingQueue) : g' ∈ s.waitingQueue ∨ g' = g := by
  rw [hnew.queue] at hg'
  simpa using hg'

/-- **What `AddRequest` leaves**: nothing, or one more group, which is new. -/
theorem addRequest_arrives (s : Scheduler σ) (salt : UInt64) (now : Nat) (requestId promptLen
    priority : Int) (tokens : Option (List Int32)) (allow req : Bool) (chunk : Int)
    (v : Option (List σ → Bool)) :
    let r := s.addRequest salt now requestId promptLen priority tokens allow req chunk v
    r = (none, s) ∨
      r.1 = some s.nextSeqId ∧ ∃ g, Arrives s r.2 g promptLen allow tokens.isSome := by
  intro r
  by_cases hreject : allow = false ∧ promptLen > s.config.maxNumBatchedTokens
  · left
    show addRequest s salt now requestId promptLen priority tokens allow req chunk v = _
    unfold addRequest
    rw [if_pos hreject]
  right
  obtain ⟨found, hfound, hcust, hlen, hshort, hlong, hnone⟩ :
      ∃ found : PrefixCacheMatch × BlockManager σ,
      found = (if (tokens.any fun ts => !ts.isEmpty) then
          s.blockManager.findLongestCachedPrefixWithVerification salt tokens promptLen req v
        else ({}, s.blockManager)) ∧
      (∀ held, Custody s.blockManager held → Custody found.2 (found.1.cachedBlockIds ++ held)) ∧
      found.1.cachedTokens = blockSlots * found.1.cachedBlockIds.length ∧
      (0 < promptLen → (blockSlots : Int) * found.1.cachedBlockIds.length < promptLen) ∧
      (promptLen ≤ 0 → found.1.cachedBlockIds = []) ∧
      (tokens.isSome = false → found.1.cachedBlockIds = []) := by
    refine ⟨_, rfl, ?_⟩
    split
    · obtain ⟨hlen, hshort, hlong⟩ :=
        findLongest_cached s.blockManager salt tokens promptLen req v
      refine ⟨fun held hc => hc.findLongest salt tokens promptLen req v, hlen, hshort, hlong, ?_⟩
      intro hnone
      rw [Option.isSome_eq_false_iff, Option.isNone_iff_eq_none] at hnone
      subst hnone
      rfl
    · exact ⟨fun held hc => hc, by simp, by simp, fun _ => rfl, fun _ => rfl⟩
  have hr : r = addRequest s salt now requestId promptLen priority tokens allow req chunk v := rfl
  unfold addRequest at hr
  rw [if_neg hreject] at hr
  dsimp only at hr
  rw [← hfound] at hr
  by_cases hhit : found.1.cachedTokens > 0 ∧ found.1.cachedBlockIds ≠ []
  · rw [if_pos hhit] at hr
    have hpos : 0 < promptLen := by
      by_contra hneg
      exact hhit.2 (hlong (by omega))
    rw [hr]
    refine ⟨rfl, _, rfl, rfl, hcust, rfl, rfl, rfl, rfl, rfl, rfl, rfl, by rw [← hlen], rfl, rfl, hlen,
      ?_, hshort, hlong, hnone⟩
    have := hshort hpos
    show max 0 (promptLen - found.1.cachedTokens) = _
    rw [hlen]
    exact max_eq_right (by omega)
  rw [if_neg hhit] at hr
  have hnil : found.1.cachedBlockIds = [] := by
    by_contra hne
    have : 0 < found.1.cachedBlockIds.length := length_pos_iff.mpr hne
    exact hhit ⟨by rw [hlen]; unfold blockSlots; omega, hne⟩
  rw [hr]
  refine ⟨rfl, _, rfl, rfl, ?_, rfl, rfl, rfl, rfl, rfl, rfl, rfl, by simp, rfl, rfl, by simp, by simp,
    by simp, fun _ => rfl, fun _ => rfl⟩
  intro held hc
  have := hcust held hc
  rwa [hnil] at this

end Scheduler

end DenseCore
