/-
Where a sequence is, and what is recorded of it there.

A sequence in play waits, runs or is swapped out, and only one of these.  While it
waits, what it has in context and what it has left add up to its prompt; once it
runs, its context is the prompt and what it has generated.  Every operation of the
scheduler moves a single sequence, so the invariant needs one lemma about such a
move, and each operation only has to say where it puts its sequence.
-/
import DenseCore.Proofs.Runtime.KnownIds

namespace DenseCore.Scheduler

open List

variable {σ : Type}

/-! ### The invariant -/

/-- What is recorded of a waiting group. -/
structure Waits (s : Scheduler σ) (g : SequenceGroup) : Prop where
  status : s.seqStatus g.sequenceId = some .waiting
  generated : s.seqGeneratedTokens g.sequenceId = some 0
  remaining : 0 ≤ g.numTokensToProcess
  prompt : ∃ context, s.seqContextLen g.sequenceId = some context ∧
    s.seqPromptLen g.sequenceId = some (context + g.numTokensToProcess)

/-- What is recorded of a sequence whose prompt is done. -/
structure Serves (s : Scheduler σ) (status : SequenceStatus) (id : Int) : Prop where
  status : s.seqStatus id = some status
  context : ∃ prompt generated, s.seqPromptLen id = some prompt ∧
    s.seqGeneratedTokens id = some generated ∧ s.seqContextLen id = some (prompt + generated)

/-- The sequence waits, runs or is swapped out. -/
def InPlay (s : Scheduler σ) (gs : List SequenceGroup) (id : Int) : Prop :=
  id ∈ gs.map (·.sequenceId) ∨ id ∈ s.runningSeqs ∨ id ∈ s.swappedSeqs

/-- The lists of the scheduler are disjoint, and its records fit them. -/
structure Machine (s : Scheduler σ) (gs : List SequenceGroup) : Prop where
  waitingNodup : (gs.map (·.sequenceId)).Nodup
  runningNodup : s.runningSeqs.Nodup
  swappedNodup : s.swappedSeqs.Nodup
  waitingNotRunning : ∀ id ∈ gs.map (·.sequenceId), id ∉ s.runningSeqs
  waitingNotSwapped : ∀ id ∈ gs.map (·.sequenceId), id ∉ s.swappedSeqs
  runningNotSwapped : ∀ id ∈ s.runningSeqs, id ∉ s.swappedSeqs
  waits : ∀ g ∈ gs, Waits s g
  runs : ∀ id ∈ s.runningSeqs, Serves s .running id
  swappedOut : ∀ id ∈ s.swappedSeqs, Serves s .swapped id
  bounded : ∀ id, InPlay s gs id → id < s.nextSeqId

variable {s s' : Scheduler σ} {gs gs' : List SequenceGroup} {g : SequenceGroup} {id : Int}

/-- What the invariant reads. -/
structure SameRecords (s s' : Scheduler σ) (id : Int) : Prop where
  status : s'.seqStatus id = s.seqStatus id
  generated : s'.seqGeneratedTokens id = s.seqGeneratedTokens id
  context : s'.seqContextLen id = s.seqContextLen id
  prompt : s'.seqPromptLen id = s.seqPromptLen id

theorem Waits.of_same (h : Waits s g) (hsame : SameRecords s s' g.sequenceId) : Waits s' g where
  status := hsame.status.trans h.status
  generated := hsame.generated.trans h.generated
  remaining := h.remaining
  prompt := by rw [hsame.context, hsame.prompt]; exact h.prompt

theorem Serves.of_same {st : SequenceStatus} (h : Serves s st id) (hsame : SameRecords s s' id) :
    Serves s' st id where
  status := hsame.status.trans h.status
  context := by rw [hsame.context, hsame.prompt, hsame.generated]; exact h.context

theorem Machine.of_same (h : Machine s gs) (hrecords : ∀ id, SameRecords s s' id)
    (hr : s'.runningSeqs = s.runningSeqs) (hsw : s'.swappedSeqs = s.swappedSeqs)
    (hn : s'.nextSeqId = s.nextSeqId) : Machine s' gs where
  waitingNodup := h.waitingNodup
  runningNodup := by rw [hr]; exact h.runningNodup
  swappedNodup := by rw [hsw]; exact h.swappedNodup
  waitingNotRunning := by rw [hr]; exact h.waitingNotRunning
  waitingNotSwapped := by rw [hsw]; exact h.waitingNotSwapped
  runningNotSwapped := by rw [hr, hsw]; exact h.runningNotSwapped
  waits := fun g hg => (h.waits g hg).of_same (hrecords _)
  runs := by rw [hr]; exact fun id hid => (h.runs id hid).of_same (hrecords id)
  swappedOut := by rw [hsw]; exact fun id hid => (h.swappedOut id hid).of_same (hrecords id)
  bounded := by
    intro id hid
    rw [hn]
    refine h.bounded id ?_
    unfold InPlay at hid ⊢
    rwa [hr, hsw] at hid

theorem Machine.perm (h : Machine s gs) (hp : gs'.Perm gs) : Machine s gs' :=
  { h with
    waitingNodup := (hp.map _).nodup_iff.mpr h.waitingNodup
    waitingNotRunning := fun id hid => h.waitingNotRunning id ((hp.map _).mem_iff.mp hid)
    waitingNotSwapped := fun id hid => h.waitingNotSwapped id ((hp.map _).mem_iff.mp hid)
    waits := fun g hg => h.waits g (hp.mem_iff.mp hg)
    bounded := fun id hid => h.bounded id (hid.imp_left (hp.map _).mem_iff.mp) }

/-- What the invariant reads of a group. -/
def groupKey (g : SequenceGroup) : Int × Int := (g.sequenceId, g.numTokensToProcess)

theorem exists_of_groupKey (h : gs'.map groupKey = gs.map groupKey) (hg : g ∈ gs') :
    ∃ b ∈ gs, b.sequenceId = g.sequenceId ∧ b.numTokensToProcess = g.numTokensToProcess := by
  have hmem : groupKey g ∈ gs.map groupKey := h ▸ mem_map_of_mem hg
  obtain ⟨b, hb, heq⟩ := mem_map.mp hmem
  exact ⟨b, hb, congrArg Prod.fst heq, congrArg Prod.snd heq⟩

theorem map_sequenceId_of_groupKey (h : gs'.map groupKey = gs.map groupKey) :
    gs'.map (·.sequenceId) = gs.map (·.sequenceId) := by
  have hfst := congrArg (List.map Prod.fst) h
  rwa [map_map, map_map] at hfst

theorem Machine.regroup (h : Machine s gs) (hkeys : gs'.map groupKey = gs.map groupKey) :
    Machine s gs' := by
  have hids := map_sequenceId_of_groupKey hkeys
  refine { h with waitingNodup := ?_, waitingNotRunning := ?_, waitingNotSwapped := ?_
                  waits := ?_, bounded := ?_ }
  · rw [hids]; exact h.waitingNodup
  · rw [hids]; exact h.waitingNotRunning
  · rw [hids]; exact h.waitingNotSwapped
  · intro g hg
    obtain ⟨b, hb, hid, htok⟩ := exists_of_groupKey hkeys hg
    have hw := h.waits b hb
    refine ⟨?_, ?_, ?_, ?_⟩
    · rw [← hid]; exact hw.status
    · rw [← hid]; exact hw.generated
    · rw [← htok]; exact hw.remaining
    · rw [← hid, ← htok]; exact hw.prompt
  intro id hid
  unfold InPlay at hid
  rw [hids] at hid
  exact h.bounded id hid

/-! ### A move of one sequence -/

/-- The one place where a sequence may be, with the record that belongs there. -/
inductive Placed (s : Scheduler σ) (gs : List SequenceGroup) (id : Int) : Prop where
  | waiting (hw : ∀ g ∈ gs, g.sequenceId = id → Waits s g) (hr : id ∉ s.runningSeqs)
      (hsw : id ∉ s.swappedSeqs)
  | running (hw : id ∉ gs.map (·.sequenceId)) (hr : Serves s .running id) (hsw : id ∉ s.swappedSeqs)
  | swapped (hw : id ∉ gs.map (·.sequenceId)) (hr : id ∉ s.runningSeqs) (hsw : Serves s .swapped id)

/-- Only `id` changes its place and its records. -/
structure Moved (s : Scheduler σ) (gs : List SequenceGroup) (s' : Scheduler σ)
    (gs' : List SequenceGroup) (id : Int) : Prop where
  nextSeqId : s'.nextSeqId = s.nextSeqId
  known : InPlay s' gs' id → id < s.nextSeqId
  records : ∀ x, x ≠ id → SameRecords s s' x
  groups : ∀ g, g.sequenceId ≠ id → (g ∈ gs' ↔ g ∈ gs)
  running : ∀ x, x ≠ id → (x ∈ s'.runningSeqs ↔ x ∈ s.runningSeqs)
  swapped : ∀ x, x ≠ id → (x ∈ s'.swappedSeqs ↔ x ∈ s.swappedSeqs)
  groupsNodup : (gs'.map (·.sequenceId)).Nodup
  runningNodup : s'.runningSeqs.Nodup
  swappedNodup : s'.swappedSeqs.Nodup
  place : Placed s' gs' id

theorem Moved.mem_ids (h : Moved s gs s' gs' id) {x : Int} (hne : x ≠ id) :
    x ∈ gs'.map (·.sequenceId) ↔ x ∈ gs.map (·.sequenceId) := by
  simp only [mem_map]
  refine ⟨?_, ?_⟩
  · rintro ⟨g, hg, rfl⟩
    exact ⟨g, (h.groups g hne).mp hg, rfl⟩
  rintro ⟨g, hg, rfl⟩
  exact ⟨g, (h.groups g hne).mpr hg, rfl⟩

theorem Moved.inPlay (h : Moved s gs s' gs' id) {x : Int} (hne : x ≠ id) :
    InPlay s' gs' x ↔ InPlay s gs x := by
  unfold InPlay
  rw [h.mem_ids hne, h.running x hne, h.swapped x hne]

theorem Placed.exclusive (h : Placed s gs id) : (id ∈ gs.map (·.sequenceId) → id ∉ s.runningSeqs) ∧
      (id ∈ gs.map (·.sequenceId) → id ∉ s.swappedSeqs) ∧
      (id ∈ s.runningSeqs → id ∉ s.swappedSeqs) := by
  cases h with
  | waiting _ hr hsw => exact ⟨fun _ => hr, fun _ => hsw, fun h => absurd h hr⟩
  | running hw _ hsw => exact ⟨fun h => absurd h hw, fun h => absurd h hw, fun _ => hsw⟩
  | swapped hw hr _ => exact ⟨fun h => absurd h hw, fun h => absurd h hw, fun h => absurd h hr⟩

/-- **A move of one sequence keeps the invariant.** -/
theorem Machine.move (h : Machine s gs) (hm : Moved s gs s' gs' id) : Machine s' gs' := by
  obtain ⟨hwr, hws, hrs⟩ := hm.place.exclusive
  refine ⟨hm.groupsNodup, hm.runningNodup, hm.swappedNodup, ?_, ?_, ?_, ?_, ?_, ?_, ?_⟩
  · intro x hx
    by_cases hne : x = id
    · subst hne; exact hwr hx
    rw [hm.running x hne]
    exact h.waitingNotRunning x ((hm.mem_ids hne).mp hx)
  · intro x hx
    by_cases hne : x = id
    · subst hne; exact hws hx
    rw [hm.swapped x hne]
    exact h.waitingNotSwapped x ((hm.mem_ids hne).mp hx)
  · intro x hx
    by_cases hne : x = id
    · subst hne; exact hrs hx
    rw [hm.swapped x hne]
    exact h.runningNotSwapped x ((hm.running x hne).mp hx)
  · intro g hg
    by_cases hne : g.sequenceId = id
    · cases hm.place with
      | waiting hw _ _ => exact hw g hg hne
      | running hw _ _ | swapped hw _ _ => exact absurd (hne ▸ mem_map_of_mem hg) hw
    · exact (h.waits g ((hm.groups g hne).mp hg)).of_same (hm.records _ hne)
  · intro x hx
    by_cases hne : x = id
    · subst hne
      cases hm.place with
      | waiting _ hr _ => exact absurd hx hr
      | running _ hr _ => exact hr
      | swapped _ hr _ => exact absurd hx hr
    · exact (h.runs x ((hm.running x hne).mp hx)).of_same (hm.records x hne)
  · intro x hx
    by_cases hne : x = id
    · subst hne
      cases hm.place with
      | waiting _ _ hsw => exact absurd hx hsw
      | running _ _ hsw => exact absurd hx hsw
      | swapped _ _ hsw => exact hsw
    · exact (h.swappedOut x ((hm.swapped x hne).mp hx)).of_same (hm.records x hne)
  intro x hx
  rw [hm.nextSeqId]
  by_cases hne : x = id
  · subst hne; exact hm.known hx
  · exact h.bounded x ((hm.inPlay hne).mp hx)

/-- To stay where one is counts as a move. -/
theorem Machine.still (h : Machine s gs) (hplay : InPlay s gs id) : Moved s gs s gs id := by
  refine ⟨rfl, h.bounded id, fun _ _ => ⟨rfl, rfl, rfl, rfl⟩, fun _ _ => Iff.rfl,
    fun _ _ => Iff.rfl, fun _ _ => Iff.rfl, h.waitingNodup, h.runningNodup, h.swappedNodup, ?_⟩
  rcases hplay with hw | hr | hsw
  · exact .waiting (fun g hg _ => h.waits g hg) (h.waitingNotRunning id hw)
      (h.waitingNotSwapped id hw)
  · exact .running (fun hw => h.waitingNotRunning id hw hr) (h.runs id hr)
      (h.runningNotSwapped id hr)
  exact .swapped (fun hw => h.waitingNotSwapped id hw hsw)
    (fun hr => h.runningNotSwapped id hr hsw) (h.swappedOut id hsw)

theorem Machine.not_cancelled (h : Machine s gs) (hp : InPlay s gs id) :
    s.seqStatus id ≠ some .cancelled := by
  rcases hp with hw | hr | hsw
  · obtain ⟨g, hg, rfl⟩ := mem_map.mp hw
    rw [(h.waits g hg).status]
    simp
  · rw [(h.runs id hr).status]
    simp
  rw [(h.swappedOut id hsw).status]
  simp

/-- What was in play at some time is in play, or has been cancelled since. -/
def Accounted (K : Int → Prop) (s : Scheduler σ) (gs : List SequenceGroup) : Prop :=
  ∀ x, K x → InPlay s gs x ∨ s.seqStatus x = some .cancelled

theorem Accounted.perm {K : Int → Prop} (h : Accounted K s gs) (hp : gs'.Perm gs) :
    Accounted K s gs' := by
  intro x hx
  refine (h x hx).imp_left ?_
  exact Or.imp_left ((hp.map _).mem_iff.mpr)

theorem Accounted.move {K : Int → Prop} (h : Accounted K s gs) (hm : Moved s gs s' gs' id)
    (hkept : InPlay s' gs' id ∨ s'.seqStatus id = some .cancelled) : Accounted K s' gs' := by
  intro x hx
  by_cases hne : x = id
  · subst hne; exact hkept
  rcases h x hx with hplay | hcancelled
  · exact Or.inl ((hm.inPlay hne).mpr hplay)
  · exact Or.inr ((hm.records x hne).status.trans hcancelled)

end DenseCore.Scheduler
