/-
The recurrent convolutions do not depend on batching, chunking or threads.

A sequence fed alone, token by token, goes through `seqState` and answers with
`seqRows`.  The invariant of a batch in progress compares every task with that:
a task that has taken `t` rounds has left its own channels, in every sequence's
state, as the sequence's tokens among the first `t` leave them.  Tasks own disjoint
channels, so a round of one task moves no other task's comparison.  When all tasks
are through, every state and every output row is what the sequence alone gives, and
consecutive batches compose.  For both callbacks this needs two taps; the closed
form of `seqState` and `seqRows` is the causal convolution with the stored history.
-/
import DenseCore.Proofs.Ssm.ConvKernel

namespace DenseCore.Ssm

open List
open Function (update update_of_ne update_self)

open Lib

variable {K : Type}

/-! ### One sequence alone -/

/-- What a callback computes per channel: the sample it feeds the filter, what it
makes of the filter's answer, and the weights. -/
structure Mixer (K : Type) where
  channels : Nat
  hist : Nat
  weight : Nat → K
  sample : Token K → Nat → K
  post : Token K → Nat → K → K

/-- The state after a list of tokens. -/
def Mixer.seqState (m : Mixer K) (b : Buffer K) (toks : List (Token K)) : Buffer K :=
  toks.foldl (fun b tok => advanced b m.hist 0 m.channels (m.sample tok)) b

theorem seqState_append (m : Mixer K) (b : Buffer K) (l l' : List (Token K)) :
    m.seqState b (l ++ l') = m.seqState (m.seqState b l) l' :=
  foldl_append

theorem seqState_size (m : Mixer K) (toks : List (Token K)) : ∀ b : Buffer K,
    (m.seqState b toks).size = b.size := by
  induction toks with
  | nil => intro b; rfl
  | cons tok rest ih =>
    intro b
    show (m.seqState (advanced b m.hist 0 m.channels (m.sample tok)) rest).size = b.size
    rw [ih]
    rfl

theorem seqState_rest (m : Mixer K) (toks : List (Token K)) {x : Nat}
    (hx : m.channels ≤ x / m.hist) : ∀ b : Buffer K, (m.seqState b toks).get x = b.get x := by
  induction toks with
  | nil => intro b; rfl
  | cons tok rest ih =>
    intro b
    show (m.seqState (advanced b m.hist 0 m.channels (m.sample tok)) rest).get x = b.get x
    rw [ih]
    show (if _ then _ else _) = _
    rw [if_neg (by omega)]

variable {c : Nat} {tokens : List (Token K)} {tok : Token K} {count : Nat → Nat} {s : BatchState K}

theorem rowOf_seqState (m : Mixer K) (toks : List (Token K)) {j : Nat} (hc : c < m.channels)
    (hj : j < m.hist) : ∀ b : Buffer K,
    rowOf (m.seqState b toks) m.hist c j
      = window m.hist (rowOf b m.hist c) (toks.map (m.sample · c)) j := by
  induction toks with
  | nil => intro b; rfl
  | cons tok rest ih =>
    intro b
    show rowOf (m.seqState (advanced b m.hist 0 m.channels (m.sample tok)) rest) m.hist c j
      = window m.hist (shift m.hist (rowOf b m.hist c) (m.sample tok c))
          (rest.map (m.sample · c)) j
    rw [ih]
    refine window_congr _ ?_ hj
    intro k hk
    rw [rowOf_advanced b 0 m.channels c (m.sample tok) hk, if_pos ⟨Nat.zero_le c, hc⟩]

variable [CommSemiring K]

/-- The output of channel `c` for a token. -/
def Mixer.output (m : Mixer K) (b : Buffer K) (tok : Token K) (c : Nat) : K :=
  m.post tok c (answers m.weight m.hist b (m.sample tok) c)

/-- The output rows for a list of tokens. -/
def Mixer.seqRows (m : Mixer K) : Buffer K → List (Token K) → List (List K)
  | _, [] => []
  | b, tok :: rest =>
    (List.range m.channels).map (m.output b tok) ::
      m.seqRows (advanced b m.hist 0 m.channels (m.sample tok)) rest

theorem seqRows_append (m : Mixer K) (l l' : List (Token K)) : ∀ b : Buffer K,
    m.seqRows b (l ++ l') = m.seqRows b l ++ m.seqRows (m.seqState b l) l' := by
  induction l with
  | nil => intro b; rfl
  | cons tok rest ih =>
    intro b
    rw [cons_append, Mixer.seqRows, Mixer.seqRows, ih, cons_append]
    rfl

theorem seqRows_eq_response (m : Mixer K) (toks : List (Token K)) : ∀ b : Buffer K,
    m.seqRows b toks = toks.mapIdx fun t tok => (List.range m.channels).map fun c =>
      m.post tok c ((response m.hist (taps m.weight (m.hist + 1) c) (rowOf b m.hist c)
        (toks.map (m.sample · c))).getD t 0) := by
  induction toks with
  | nil => intro b; rfl
  | cons tok rest ih =>
    intro b
    rw [Mixer.seqRows, mapIdx_cons, ih]
    congr 1
    refine List.mapIdx_eq_mapIdx_iff.mpr fun t ht => ?_
    refine map_congr_left fun c hc => ?_
    rw [map_cons, response, getD_cons_succ]
    congr 2
    refine response_congr _ _ fun k hk => ?_
    rw [rowOf_advanced b 0 m.channels c (m.sample tok) hk,
      if_pos ⟨Nat.zero_le c, List.mem_range.mp hc⟩]

/-! ### A batch in progress -/

variable {st st₀ : ConvStates K} {seq : Int} {b : Buffer K} {op : Op K} {m : Mixer K} {nth : Nat}

omit [CommSemiring K] in
theorem at_nonneg (h : st.at seq = some b) : 0 ≤ seq := by
  unfold ConvStates.at at h
  split at h
  · assumption
  · cases h

omit [CommSemiring K] in
theorem at_write_self (hseq : 0 ≤ seq) (b : Buffer K) :
    (st.write b (.runtime seq.toNat)).at seq = some b := by
  unfold ConvStates.at
  rw [if_pos hseq]
  exact update_self _ _ _

omit [CommSemiring K] in
theorem at_write_of_ne {seq' : Int} (hseq : 0 ≤ seq) (hne : seq' ≠ seq)
    (b : Buffer K) : (st.write b (.runtime seq.toNat)).at seq' = st.at seq' := by
  unfold ConvStates.at
  split
  · exact update_of_ne (by omega) _ _
  · rfl

/-- A callback that computes a mixer: tasks own disjoint channels that make up all
of them, and a round advances the rows and writes the outputs of its own ones. -/
structure Conforms (op : Op K) (m : Mixer K) : Prop where
  channels_eq : op.channels = m.channels
  owner_unique : ∀ {nth i i' lo hi lo' hi' c : Nat}, op.channelRange nth i = some (lo, hi) →
    op.channelRange nth i' = some (lo', hi') → lo ≤ c → c < hi → lo' ≤ c → c < hi' → i = i'
  owner_exists : ∀ (nth : Nat) {c : Nat}, c < m.channels →
    ∃ i lo hi, i < max 1 nth ∧ op.channelRange nth i = some (lo, hi) ∧ lo ≤ c ∧ c < hi
  range_le : ∀ {nth i lo hi : Nat}, op.channelRange nth i = some (lo, hi) → hi ≤ m.channels
  token_eq : ∀ {nth i lo hi : Nat} {st : ConvStates K} {tok : Token K} {b : Buffer K}
    (row : Nat → K), op.channelRange nth i = some (lo, hi) → st.at tok.seqId = some b →
    m.channels * m.hist ≤ b.size →
    op.token st tok row lo hi
      = some (st.write (advanced b m.hist lo hi (m.sample tok)) (.runtime tok.seqId.toNat),
          written row lo hi (m.output b tok))

/-- A sequence's tokens. -/
def tokensOf (seq : Int) (tokens : List (Token K)) : List (Token K) :=
  tokens.filter (·.seqId = seq)

/-- How far a batch has come.  `count i` is the number of rounds task `i` was given. -/
structure Progress (op : Op K) (m : Mixer K) (st₀ : ConvStates K) (nth : Nat)
    (tokens : List (Token K)) (count : Nat → Nat) (s : BatchState K) : Prop where
  done_eq : ∀ {i lo hi}, op.channelRange nth i = some (lo, hi) →
    s.done i = min tokens.length (count i)
  state_eq : ∀ {seq : Int} {b₀ : Buffer K}, st₀.at seq = some b₀ →
    ∃ b, s.states.at seq = some b ∧ b.size = b₀.size ∧
      (∀ {i lo hi c j : Nat}, op.channelRange nth i = some (lo, hi) → lo ≤ c → c < hi →
        j < m.hist → rowOf b m.hist c j
          = rowOf (m.seqState b₀ (tokensOf seq (tokens.take (s.done i)))) m.hist c j) ∧
      ∀ x, m.channels ≤ x / m.hist → b.get x = b₀.get x
  out_eq : ∀ {i lo hi c t : Nat} {tok : Token K} {b₀ : Buffer K},
    op.channelRange nth i = some (lo, hi) → lo ≤ c → c < hi → t < s.done i →
    tokens[t]? = some tok → st₀.at tok.seqId = some b₀ →
    s.out t c = m.output (m.seqState b₀ (tokensOf tok.seqId (tokens.take t))) tok c

theorem progress_start (op : Op K) (m : Mixer K) (st : ConvStates K) (nth : Nat)
    (tokens : List (Token K)) (dst : Nat → Nat → K) :
    Progress op m st nth tokens (fun _ => 0) { states := st, done := fun _ => 0, out := dst } where
  done_eq := by
    intro i lo hi _
    exact (Nat.min_zero _).symm
  state_eq := by
    intro seq b₀ h
    exact ⟨b₀, h, rfl, fun _ _ _ _ => rfl, fun _ _ => rfl⟩
  out_eq := by
    intro i lo hi c t tok b₀ _ _ _ ht
    exact absurd ht (Nat.not_lt_zero t)

/-- Every token has a state of the right size. -/
def Allocated (m : Mixer K) (st : ConvStates K) (tokens : List (Token K)) : Prop :=
  ∀ tok ∈ tokens, ∃ b, st.at tok.seqId = some b ∧ m.channels * m.hist ≤ b.size

theorem output_congr (m : Mixer K) {b' : Buffer K} (tok : Token K)
    (h : ∀ j, j < m.hist → rowOf b m.hist c j = rowOf b' m.hist c j) :
    m.output b tok c = m.output b' tok c := by
  unfold Mixer.output answers
  rw [tap_congr _ h]

omit [CommSemiring K] in
theorem tokensOf_take_succ {t : Nat} (h : tokens[t]? = some tok) :
    tokensOf seq (tokens.take (t + 1))
      = tokensOf seq (tokens.take t) ++ (if tok.seqId = seq then [tok] else []) := by
  unfold tokensOf
  rw [take_add_one, filter_append, h]
  by_cases hseq : tok.seqId = seq
  · simp [hseq]
  · simp [hseq]

/-- One token of one thread: its channels are advanced and written, and nothing else. -/
theorem token_progress (hop : Conforms op m)
    (hs : Progress op m st₀ nth tokens count s) {ith lo hi : Nat}
    (hrange : op.channelRange nth ith = some (lo, hi))
    (htok : tokens[s.done ith]? = some tok) {b₀ : Buffer K} (hb₀ : st₀.at tok.seqId = some b₀)
    (hb : s.states.at tok.seqId = some b) :
    Progress op m st₀ nth tokens (update count ith (count ith + 1))
      { states := s.states.write (advanced b m.hist lo hi (m.sample tok)) (.runtime tok.seqId.toNat)
        done := update s.done ith (s.done ith + 1)
        out := update s.out (s.done ith)
          (written (s.out (s.done ith)) lo hi (m.output b tok)) } := by
  obtain ⟨b', hb', hsize, hrows, hrest⟩ := hs.state_eq hb₀
  obtain rfl : b = b' := Option.some.inj (hb.symm.trans hb')
  have hseq : 0 ≤ tok.seqId := at_nonneg hb
  have hlen : s.done ith < tokens.length := (List.getElem?_eq_some_iff.mp htok).1
  have hother : ∀ {i lo' hi' c : Nat}, op.channelRange nth i = some (lo', hi') → lo' ≤ c →
      c < hi' → i ≠ ith → ¬ (lo ≤ c ∧ c < hi) := by
    intro i lo' hi' c h' hlo' hhi' hne hin
    exact hne (hop.owner_unique h' hrange hlo' hhi' hin.1 hin.2)
  refine ⟨?_, ?_, ?_⟩
  · intro i lo' hi' h'
    show update s.done ith (s.done ith + 1) i = _
    by_cases heq : i = ith
    · subst heq
      have hdone := hs.done_eq hrange
      rw [update_self, update_self]
      omega
    rw [update_of_ne heq, update_of_ne heq]
    exact hs.done_eq h'
  · intro seq c₀ hc₀
    by_cases hown : seq = tok.seqId
    · subst hown
      obtain rfl : b₀ = c₀ := Option.some.inj (hb₀.symm.trans hc₀)
      refine ⟨_, at_write_self hseq _, hsize, ?_, ?_⟩
      · intro i lo' hi' c j h' hlo' hhi' hj
        show rowOf _ m.hist c j = rowOf (m.seqState b₀ (tokensOf tok.seqId
          (tokens.take (update s.done ith (s.done ith + 1) i)))) m.hist c j
        rw [rowOf_advanced b lo hi c (m.sample tok) hj]
        by_cases heq : i = ith
        · subst heq
          rw [hrange] at h'
          obtain ⟨rfl, rfl⟩ : lo = lo' ∧ hi = hi' := by simpa using h'
          have hall : c < m.channels := lt_of_lt_of_le hhi' (hop.range_le hrange)
          rw [if_pos ⟨hlo', hhi'⟩, update_self, tokensOf_take_succ htok, if_pos rfl,
            seqState_append]
          show _ = rowOf (advanced _ m.hist 0 m.channels (m.sample tok)) m.hist c j
          rw [rowOf_advanced _ 0 m.channels c (m.sample tok) hj, if_pos ⟨Nat.zero_le c, hall⟩]
          exact shift_congr _ _ fun k hk => hrows hrange hlo' hhi' hk
        rw [if_neg (hother h' hlo' hhi' heq), update_of_ne heq]
        exact hrows h' hlo' hhi' hj
      · intro x hx
        have hle := hop.range_le hrange
        show (if _ then _ else _) = _
        rw [if_neg (by omega)]
        exact hrest x hx
    · obtain ⟨d, hd, hdsize, hdrows, hdrest⟩ := hs.state_eq hc₀
      refine ⟨d, (at_write_of_ne hseq hown _).trans hd, hdsize, ?_, hdrest⟩
      intro i lo' hi' c j h' hlo' hhi' hj
      show _ = rowOf (m.seqState c₀ (tokensOf seq
        (tokens.take (update s.done ith (s.done ith + 1) i)))) m.hist c j
      rw [hdrows h' hlo' hhi' hj]
      by_cases heq : i = ith
      · -- The task moved on, but over a token of another sequence.
        subst heq
        rw [update_self, tokensOf_take_succ htok, if_neg (Ne.symm hown), append_nil]
      · rw [update_of_ne heq]
  · intro i lo' hi' c t tok' c₀ h' hlo' hhi' ht htok' hc₀
    show update s.out (s.done ith) _ t c = _
    by_cases heq : i = ith
    · subst heq
      rw [hrange] at h'
      obtain ⟨rfl, rfl⟩ : lo = lo' ∧ hi = hi' := by simpa using h'
      have ht' : t < s.done i + 1 := by
        have h := ht
        change t < update s.done i (s.done i + 1) i at h
        rw [update_self] at h
        exact h
      by_cases hnew : t = s.done i
      · subst hnew
        obtain rfl : tok = tok' := Option.some.inj (htok.symm.trans htok')
        obtain rfl : b₀ = c₀ := Option.some.inj (hb₀.symm.trans hc₀)
        rw [update_self]
        show (if _ then _ else _) = _
        rw [if_pos ⟨hlo', hhi'⟩]
        exact output_congr m tok fun j hj => hrows hrange hlo' hhi' hj
      rw [update_of_ne hnew]
      exact hs.out_eq hrange hlo' hhi' (by omega) htok' hc₀
    · have ht' : t < s.done i := by
        have h := ht
        change t < update s.done ith (s.done ith + 1) i at h
        rw [update_of_ne heq] at h
        exact h
      have hold := hs.out_eq h' hlo' hhi' ht' htok' hc₀
      by_cases hsame : t = s.done ith
      · subst hsame
        rw [update_self]
        show (if _ then _ else _) = _
        rw [if_neg (hother h' hlo' hhi' heq)]
        exact hold
      rw [update_of_ne hsame]
      exact hold

/-- **One round of one task keeps the comparison for all tasks.** -/
theorem round_progress (hop : Conforms op m) (halloc : Allocated m st₀ tokens)
    (hs : Progress op m st₀ nth tokens count s) (ith : Nat) :
    ∃ s', op.round nth tokens s ith = some s' ∧
      Progress op m st₀ nth tokens (update count ith (count ith + 1)) s' := by
  unfold Op.round
  cases hrange : op.channelRange nth ith with
  | none =>
    refine ⟨s, by cases tokens[s.done ith]? <;> rfl, ?_, hs.state_eq, hs.out_eq⟩
    intro i lo hi hi'
    have hne : i ≠ ith := by
      intro heq
      rw [heq, hrange] at hi'
      cases hi'
    rw [update_of_ne hne]
    exact hs.done_eq hi'
  | some range =>
    obtain ⟨lo, hi⟩ := range
    have hdone := hs.done_eq hrange
    cases htok : tokens[s.done ith]? with
    | none =>
      -- The task is through its tokens already.
      have hlen : tokens.length ≤ s.done ith := List.getElem?_eq_none_iff.mp htok
      refine ⟨s, rfl, ?_, hs.state_eq, hs.out_eq⟩
      intro i lo' hi' h'
      by_cases heq : i = ith
      · subst heq
        rw [update_self]
        omega
      rw [update_of_ne heq]
      exact hs.done_eq h'
    | some tok =>
      obtain ⟨b₀, hb₀, hfit⟩ := halloc tok (mem_of_getElem? htok)
      obtain ⟨b, hb, hsize, -, -⟩ := hs.state_eq hb₀
      refine ⟨_, ?_, token_progress hop hs hrange htok hb₀ hb⟩
      show (do
        let r ← op.token s.states tok (s.out (s.done ith)) lo hi
        pure _ : Option (BatchState K)) = _
      rw [hop.token_eq _ hrange hb (by omega)]
      rfl

theorem schedule_progress (hop : Conforms op m) (halloc : Allocated m st₀ tokens)
    (schedule : List Nat) : ∀ {count : Nat → Nat} {s : BatchState K},
    Progress op m st₀ nth tokens count s →
    ∃ s', schedule.foldlM (op.round nth tokens) s = some s' ∧
      Progress op m st₀ nth tokens (fun i => count i + schedule.count i) s' := by
  induction schedule with
  | nil => intro count s hs; exact ⟨s, rfl, hs⟩
  | cons ith rest ih =>
    intro count s hs
    obtain ⟨s₁, hround, hs₁⟩ := round_progress hop halloc hs ith
    obtain ⟨s₂, hrest, hs₂⟩ := ih hs₁
    refine ⟨s₂, ?_, ?_⟩
    · rw [foldlM_cons, hround]
      exact hrest
    have hcount : (fun i => update count ith (count ith + 1) i + rest.count i)
        = fun i => count i + (ith :: rest).count i := by
      funext i
      by_cases heq : i = ith
      · subst heq
        rw [update_self, count_cons_self]
        omega
      · rw [update_of_ne heq, count_cons_of_ne (Ne.symm heq)]
    rw [← hcount]
    exact hs₂

/-! ### Whole batches -/

/-- Every task gets through the batch. -/
def Complete (batch : Batch K) : Prop :=
  ∀ i, i < max 1 batch.nth → batch.tokens.length ≤ batch.schedule.count i

/-- The output rows of a sequence, in order. -/
def outputsFor (seq : Int) (outs : List (Int × List K)) : List (List K) :=
  (outs.filter (·.1 = seq)).map (·.2)

omit [CommSemiring K] in
theorem outputsFor_append (seq : Int) (l l' : List (Int × List K)) :
    outputsFor seq (l ++ l') = outputsFor seq l ++ outputsFor seq l' := by
  unfold outputsFor
  rw [filter_append, map_append]

omit [CommSemiring K] in
theorem tokensOf_append (seq : Int) (l l' : List (Token K)) :
    tokensOf seq (l ++ l') = tokensOf seq l ++ tokensOf seq l' :=
  filter_append l l'

theorem outputsFor_mapIdx (m : Mixer K) (seq : Int) (tokens : List (Token K)) :
    ∀ (b₀ : Buffer K) (rows : Nat → List K),
    (∀ t tok, tokens[t]? = some tok → tok.seqId = seq → rows t = (List.range m.channels).map
        (m.output (m.seqState b₀ (tokensOf seq (tokens.take t))) tok)) →
    outputsFor seq (tokens.mapIdx fun t tok => (tok.seqId, rows t))
      = m.seqRows b₀ (tokensOf seq tokens) := by
  induction tokens with
  | nil => intro b₀ rows _; rfl
  | cons tok rest ih =>
    intro b₀ rows hrows
    rw [mapIdx_cons]
    by_cases hseq : tok.seqId = seq
    · have hfirst := hrows 0 tok rfl hseq
      have htail := ih (advanced b₀ m.hist 0 m.channels (m.sample tok)) (fun t => rows (t + 1)) ?_
      · have htoks : tokensOf seq (tok :: rest) = tok :: tokensOf seq rest := by
          simp [tokensOf, hseq]
        rw [htoks, Mixer.seqRows, ← htail, ← hseq]
        simp only [outputsFor, filter_cons, decide_true, if_true, map_cons]
        rw [hfirst]
        rfl
      intro t tok' htok' hseq'
      rw [hrows (t + 1) tok' htok' hseq', take_succ_cons]
      have htoks : tokensOf seq (tok :: rest.take t) = tok :: tokensOf seq (rest.take t) := by
        simp [tokensOf, hseq]
      rw [htoks]
      rfl
    · have htoks : ∀ l, tokensOf seq (tok :: l) = tokensOf seq l := by
        intro l
        simp [tokensOf, hseq]
      have htail := ih b₀ (fun t => rows (t + 1)) ?_
      · rw [htoks, ← htail]
        simp [outputsFor, hseq]
      intro t tok' htok' hseq'
      rw [hrows (t + 1) tok' htok' hseq', take_succ_cons, htoks]

/-- **A batch gives every sequence what it gets alone.** -/
theorem runBatch_eq (hop : Conforms op m) (hpos : 0 < m.hist ∨ m.channels = 0) {batch : Batch K}
    (halloc : Allocated m st batch.tokens)
    (hcomplete : Complete batch) :
    ∃ st' outs, op.runBatch st batch = some (st', outs) ∧ ∀ seq b₀, st.at seq = some b₀ →
        st'.at seq = some (m.seqState b₀ (tokensOf seq batch.tokens)) ∧
          outputsFor seq outs = m.seqRows b₀ (tokensOf seq batch.tokens) := by
  obtain ⟨s, hs, hprog⟩ := schedule_progress hop halloc batch.schedule
    (progress_start op m st batch.nth batch.tokens batch.dst)
  have hdone : ∀ {i lo hi}, i < max 1 batch.nth →
      op.channelRange batch.nth i = some (lo, hi) → s.done i = batch.tokens.length := by
    intro i lo hi hi' hrange
    have h1 := hprog.done_eq hrange
    have h2 := hcomplete i hi'
    rw [h1, Nat.zero_add]
    omega
  refine ⟨s.states, _, by unfold Op.runBatch; rw [hs]; rfl, ?_⟩
  intro seq b₀ hb₀
  refine ⟨?_, ?_⟩
  · obtain ⟨b, hb, hsize, hrows, hrest⟩ := hprog.state_eq hb₀
    rw [hb]
    congr 1
    ext x
    · rw [hsize, seqState_size]
    by_cases hx : m.channels ≤ x / m.hist
    · rw [hrest x hx, seqState_rest m _ hx]
    obtain ⟨i, lo, hi, hi', hrange, hlo, hhi⟩ :=
      hop.owner_exists batch.nth (Nat.lt_of_not_le hx)
    have hrow := hrows hrange hlo hhi (Nat.mod_lt x (by omega))
    rw [hdone hi' hrange, take_length] at hrow
    unfold rowOf at hrow
    rwa [Nat.div_add_mod' x m.hist] at hrow
  · refine outputsFor_mapIdx m seq batch.tokens b₀ _ ?_
    intro t tok htok hseq
    subst hseq
    rw [hop.channels_eq]
    refine map_congr_left fun c hc => ?_
    obtain ⟨i, lo, hi, hi', hrange, hlo, hhi⟩ :=
      hop.owner_exists batch.nth (List.mem_range.mp hc)
    refine hprog.out_eq hrange hlo hhi ?_ htok hb₀
    rw [hdone hi' hrange]
    exact (List.getElem?_eq_some_iff.mp htok).1

/-- All tokens of a list of batches. -/
def allTokens (batches : List (Batch K)) : List (Token K) := batches.flatMap (·.tokens)

/-- **Consecutive batches compose.** -/
theorem runBatches_eq (hop : Conforms op m) (hpos : 0 < m.hist ∨ m.channels = 0)
    (batches : List (Batch K)) : ∀ {st : ConvStates K},
    Allocated m st (allTokens batches) → (∀ batch ∈ batches, Complete batch) →
    ∃ st' outs, op.runBatches st batches = some (st', outs) ∧ ∀ seq b₀, st.at seq = some b₀ →
        st'.at seq = some (m.seqState b₀ (tokensOf seq (allTokens batches))) ∧
          outputsFor seq outs = m.seqRows b₀ (tokensOf seq (allTokens batches)) := by
  induction batches with
  | nil =>
    intro st _ _
    exact ⟨st, [], rfl, fun seq b₀ hb₀ => ⟨hb₀, rfl⟩⟩
  | cons batch rest ih =>
    intro st halloc hcomplete
    have hsplit : allTokens (batch :: rest) = batch.tokens ++ allTokens rest := rfl
    rw [hsplit] at halloc ⊢
    obtain ⟨st₁, outs₁, hrun₁, hspec₁⟩ := runBatch_eq hop hpos
      (fun tok htok => halloc tok (mem_append_left _ htok)) (hcomplete batch (by simp))
    have halloc₁ : Allocated m st₁ (allTokens rest) := by
      intro tok htok
      obtain ⟨b, hb, hfit⟩ := halloc tok (mem_append_right _ htok)
      exact ⟨_, (hspec₁ _ b hb).1, by rw [seqState_size]; exact hfit⟩
    obtain ⟨st₂, outs₂, hrun₂, hspec₂⟩ := ih halloc₁ fun b hb => hcomplete b (by simp [hb])
    refine ⟨st₂, outs₁ ++ outs₂, ?_, ?_⟩
    · unfold Op.runBatches
      rw [hrun₁]
      show (do let r' ← op.runBatches st₁ rest; pure (r'.1, outs₁ ++ r'.2)) = _
      rw [hrun₂]
      rfl
    intro seq b₀ hb₀
    obtain ⟨hstate₁, hrows₁⟩ := hspec₁ seq b₀ hb₀
    obtain ⟨hstate₂, hrows₂⟩ := hspec₂ seq _ hstate₁
    rw [tokensOf_append, seqState_append, seqRows_append, outputsFor_append, hrows₁, hrows₂]
    exact ⟨hstate₂, rfl⟩

end DenseCore.Ssm
