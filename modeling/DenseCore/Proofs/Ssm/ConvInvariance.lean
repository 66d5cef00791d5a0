/-
Batch, chunk and thread invariance of the two callbacks.

Both callbacks conform to a mixer, so the results on batches apply to them: every
sequence gets, from any list of batches with any thread counts and schedules, the
outputs and the state it gets when its tokens are fed alone, one at a time, on one
thread, which is the causal convolution with its stored history.

`cb_lfm2_shortconv` turns one tap down at its entry.  `cb_ssm_conv1d` does not, and
with one tap it faults on the first token: so for it the result holds exactly with
two taps or more, or when there is nothing to do.
-/
import DenseCore.Proofs.Ssm.ConvBatch

namespace DenseCore.Ssm

open Option hiding filter_filter max mem_map

open List hiding le_trans

open Lib

variable {K : Type}

/-! ### The callbacks conform -/

section Ranges

variable (ud : SsmConv1dUserData K)

variable {nth i lo hi c : Nat}

theorem channelRange_some (h : ud.channelRange nth i = some (lo, hi)) : lo < hi ∧ i < max 1 nth ∧
      lo = splitStart ud.channels (if ud.singleTask then 1 else max 1 nth)
        (if ud.singleTask then 0 else i) ∧
      hi = splitStart ud.channels (if ud.singleTask then 1 else max 1 nth)
        ((if ud.singleTask then 0 else i) + 1) ∧
      (ud.singleTask = true → i = 0) := by
  unfold SsmConv1dUserData.channelRange at h
  dsimp only at h
  by_cases htask : max 1 nth ≤ i
  · rw [if_pos htask] at h
    cases h
  rw [if_neg htask] at h
  by_cases hother : (ud.singleTask && i != 0) = true
  · rw [if_pos hother] at h
    cases h
  rw [if_neg hother] at h
  simp only [ite_none_left_eq_some, some.injEq, Prod.mk.injEq] at h
  obtain ⟨hlt, rfl, rfl⟩ := h
  refine ⟨by omega, by omega, rfl, rfl, ?_⟩
  intro hs
  simpa [hs] using hother

theorem channelRange_le (h : ud.channelRange nth i = some (lo, hi)) : hi ≤ ud.channels := by
  obtain ⟨-, hi', -, rfl, -⟩ := channelRange_some ud h
  refine splitStart_le _ ?_
  split <;> omega

theorem channelRange_owner_unique {i' lo' hi' : Nat}
    (h : ud.channelRange nth i = some (lo, hi)) (h' : ud.channelRange nth i' = some (lo', hi'))
    (hlo : lo ≤ c) (hhi : c < hi) (hlo' : lo' ≤ c) (hhi' : c < hi') : i = i' := by
  obtain ⟨-, -, rfl, rfl, hs⟩ := channelRange_some ud h
  obtain ⟨-, -, rfl, rfl, hs'⟩ := channelRange_some ud h'
  have heq := split_owner_unique hlo hhi hlo' hhi'
  by_cases hsingle : ud.singleTask = true
  · rw [hs hsingle, hs' hsingle]
  · simpa [hsingle] using heq

theorem channelRange_owner_exists (nth : Nat) (hc : c < ud.channels) :
    ∃ i lo hi, i < max 1 nth ∧ ud.channelRange nth i = some (lo, hi) ∧ lo ≤ c ∧ c < hi := by
  by_cases hsingle : ud.singleTask = true
  · refine ⟨0, 0, ud.channels, by omega, ?_, Nat.zero_le c, hc⟩
    unfold SsmConv1dUserData.channelRange
    simp [hsingle, splitStart]
    omega
  obtain ⟨i, hi, hlo, hhi⟩ := split_owner_exists (n := max 1 nth) (by omega) hc
  refine ⟨i, _, _, hi, ?_, hlo, hhi⟩
  unfold SsmConv1dUserData.channelRange
  simp [hsingle]
  omega

end Ranges

variable {st : ConvStates K} {b : Buffer K}

theorem buffer_of_at {seq : Int} (h : st.at seq = some b) :
    st.buffer (.runtime seq.toNat) = some b := by
  unfold ConvStates.at at h
  rw [if_pos (at_nonneg h)] at h
  exact h

variable [CommSemiring K]

variable (ud : SsmConv1dUserData K)

/-- What `cb_ssm_conv1d` computes. -/
def ssmMixer : Mixer K where
  channels := ud.channels
  hist := ud.kernelSize - 1
  weight := ud.weight
  sample := fun tok c => tok.col c
  post := fun _ _ y => if ud.applySilu then ud.silu y else y

/-- What `cb_lfm2_shortconv` computes: a gate before and a gate after the filter. -/
def lfm2Mixer (ud : Lfm2ShortConvUserData K) : Mixer K where
  channels := ud.channels
  hist := ud.kernel - 1
  weight := ud.convWeight
  sample := fun tok c => tok.col c * tok.col (2 * ud.channels + c)
  post := fun tok c y => tok.col (ud.channels + c) * y

theorem ssmConv1dToken_eq (hks : 2 ≤ ud.kernelSize) {lo hi : Nat}
    (hlt : lo < hi) (hle : hi ≤ ud.channels) {tok : Token K}
    (row : Nat → K) (hb : st.at tok.seqId = some b)
    (hfit : ud.channels * (ud.kernelSize - 1) ≤ b.size) :
    ssmConv1dToken ud st tok row lo hi
      = some (st.write (advanced b (ud.kernelSize - 1) lo hi ((ssmMixer ud).sample tok))
          (.runtime tok.seqId.toNat), written row lo hi ((ssmMixer ud).output b tok)) := by
  obtain ⟨hist, hhist, hpos⟩ : ∃ hist, ud.kernelSize = hist + 1 ∧ 0 < hist :=
    ⟨ud.kernelSize - 1, by omega, by omega⟩
  rw [hhist, Nat.add_sub_cancel] at hfit ⊢
  have hone : 1 * 1 ≤ ud.channels * hist := Nat.mul_le_mul (by omega) hpos
  have hresolve : ud.resolveState st tok.seqId = some (.runtime tok.seqId.toNat) := by
    unfold SsmConv1dUserData.resolveState convStateElems
    rw [hb, hhist, Nat.add_sub_cancel]
    exact if_pos ⟨hfit, by omega⟩
  have hsize : (lo + (hi - lo)) * hist ≤ b.size :=
    le_trans (Nat.mul_le_mul_right hist (by omega)) hfit
  have hkernel := ssmConv1dDecode_eq b hpos lo (hi - lo) hsize tok.col ud.weight row
  rw [show lo + (hi - lo) = hi by omega] at hkernel
  unfold ssmConv1dToken
  simp only [hresolve, buffer_of_at hb, hhist, Nat.add_sub_cancel, bind_eq_bind,
    bind_some, hkernel, Option.pure_def]
  show some (_, if ud.applySilu = true then mapChannels ud.silu _ lo hi else _) = _
  congr 2
  funext c
  unfold mapChannels written Mixer.output ssmMixer
  dsimp only
  rw [hhist, Nat.add_sub_cancel]
  by_cases hsilu : ud.applySilu = true
  · rw [if_pos hsilu]
    by_cases hc : lo ≤ c ∧ c < hi
    · rw [if_pos hc, if_pos hc, if_pos hc, if_pos hsilu]
    · rw [if_neg hc, if_neg hc, if_neg hc]
  rw [if_neg hsilu]
  by_cases hc : lo ≤ c ∧ c < hi
  · rw [if_pos hc, if_pos hc, if_neg hsilu]
  · rw [if_neg hc, if_neg hc]

/-- With two taps or more `cb_ssm_conv1d` computes its mixer; without channels there
is nothing to compute. -/
theorem ssmConv1d_conforms (h : 2 ≤ ud.kernelSize ∨ ud.channels = 0) :
    Conforms (ssmConv1d ud) (ssmMixer ud) where
  channels_eq := rfl
  owner_unique := channelRange_owner_unique ud
  owner_exists := fun nth _ hc => channelRange_owner_exists ud nth hc
  range_le := channelRange_le ud
  token_eq := by
    intro nth i lo hi st tok b row hrange hb hfit
    have hlt : lo < hi := (channelRange_some ud hrange).1
    have hle : hi ≤ ud.channels := channelRange_le ud hrange
    exact ssmConv1dToken_eq ud (by omega) hlt hle row hb hfit

theorem lfm2ShortConvToken_eq (ud : Lfm2ShortConvUserData K) (hk : 2 ≤ ud.kernel) {tok : Token K}
    (row : Nat → K) (lo hi : Nat)
    (hb : st.at tok.seqId = some b) (hfit : ud.channels * (ud.kernel - 1) ≤ b.size) :
    lfm2ShortConvToken ud st tok row lo hi
      = some (st.write (advanced b (ud.kernel - 1) 0 ud.channels ((lfm2Mixer ud).sample tok))
          (.runtime tok.seqId.toNat), written row 0 ud.channels ((lfm2Mixer ud).output b tok)) := by
  have hresolve : ud.resolveState st tok.seqId = some (.runtime tok.seqId.toNat) := by
    unfold Lfm2ShortConvUserData.resolveState convStateElems
    rw [hb]
    exact if_pos hfit
  obtain ⟨hist, hhist, hpos⟩ : ∃ hist, ud.kernel = hist + 1 ∧ 0 < hist :=
    ⟨ud.kernel - 1, by omega, by omega⟩
  rw [hhist, Nat.add_sub_cancel] at hfit ⊢
  unfold lfm2ShortConvToken
  simp only [hresolve, buffer_of_at hb, hhist, bind_eq_bind, bind_some,
    lfm2ShortConvStep_eq b hpos hfit, Option.pure_def]
  congr 2
  -- The zeroed row is written over in full.
  funext c
  unfold written Mixer.output lfm2Mixer mapChannels
  dsimp only
  rw [hhist, Nat.add_sub_cancel]
  by_cases hc : 0 ≤ c ∧ c < ud.channels
  · rw [if_pos hc, if_pos hc]
  · rw [if_neg hc, if_neg hc, if_neg hc]

theorem lfm2ShortConv_conforms (ud : Lfm2ShortConvUserData K) (hk : 2 ≤ ud.kernel) :
    Conforms (lfm2ShortConv ud) (lfm2Mixer ud) := by
  have hrange : ∀ nth i lo hi : Nat, ud.channelRange nth i = some (lo, hi) →
      i = 0 ∧ lo = 0 ∧ hi = ud.channels := by
    intro nth i lo hi h
    unfold Lfm2ShortConvUserData.channelRange at h
    simp only [ite_none_left_eq_some, some.injEq, Prod.mk.injEq, not_not] at h
    obtain ⟨hi', -, rfl, rfl⟩ := h
    exact ⟨hi', rfl, rfl⟩
  refine ⟨rfl, ?_, ?_, ?_, ?_⟩
  · intro nth i i' lo hi lo' hi' c h h' _ _ _ _
    rw [(hrange nth i lo hi h).1, (hrange nth i' lo' hi' h').1]
  · intro nth c hc
    have hpos : ud.channels ≠ 0 := Nat.ne_of_gt (Nat.lt_of_le_of_lt (Nat.zero_le c) hc)
    refine ⟨0, 0, ud.channels, by omega, ?_, Nat.zero_le c, hc⟩
    show ud.channelRange nth 0 = _
    unfold Lfm2ShortConvUserData.channelRange
    rw [if_neg (by omega), if_neg (by omega)]
  · intro nth i lo hi h
    exact le_of_eq (hrange nth i lo hi h).2.2
  intro nth i lo hi st tok b row h hb hfit
  obtain ⟨-, rfl, rfl⟩ := hrange nth i lo hi h
  exact lfm2ShortConvToken_eq ud hk row 0 ud.channels hb hfit

/-! ### The closed form -/

/-- The causal convolution of a channel's samples after its stored history. -/
def causalConv (m : Mixer K) (b : Buffer K) (xs : List K) (c t : Nat) : K :=
  ∑ k ∈ Finset.range (m.hist + 1),
    extended m.hist (rowOf b m.hist c) xs (t + k) * m.weight (c * (m.hist + 1) + k)

/-- A sequence's final state and output rows are those of the causal convolution. -/
structure CausalResult (m : Mixer K) (b₀ : Buffer K) (toks : List (Token K))
    (state : Option (Buffer K)) (rows : List (List K)) : Prop where
  state_eq : ∃ b, state = some b ∧ b.size = b₀.size ∧
    (∀ c j, c < m.channels → j < m.hist → b.get (c * m.hist + j)
      = extended m.hist (rowOf b₀ m.hist c) (toks.map (m.sample · c)) (toks.length + j)) ∧
    ∀ x, m.channels * m.hist ≤ x → b.get x = b₀.get x
  rows_eq : rows = toks.mapIdx fun t tok => (range m.channels).map fun c =>
    m.post tok c (causalConv m b₀ (toks.map (m.sample · c)) c t)

theorem causalResult_seq (m : Mixer K) (b₀ : Buffer K) (toks : List (Token K))
    (h : 0 < m.hist ∨ m.channels = 0 ∨ toks = []) :
    CausalResult m b₀ toks (some (m.seqState b₀ toks)) (m.seqRows b₀ toks) where
  state_eq := by
    refine ⟨_, rfl, seqState_size m toks b₀, ?_, ?_⟩
    · intro c j hc hj
      have hrow := rowOf_seqState m toks hc hj b₀
      rw [window_eq_extended _ _ hj, length_map] at hrow
      exact hrow
    intro x hx
    rcases h with hpos | hzero | hnil
    · exact seqState_rest m toks ((Nat.le_div_iff_mul_le hpos).mpr hx) b₀
    · exact seqState_rest m toks (by rw [hzero]; exact Nat.zero_le _) b₀
    rw [hnil]
    rfl
  rows_eq := by
    rw [seqRows_eq_response]
    refine mapIdx_eq_mapIdx_iff.mpr fun t ht => ?_
    refine map_congr_left fun c _ => ?_
    rw [response_eq_extended, length_map]
    congr 1
    rw [getD_eq_getElem?_getD, getElem?_map, getElem?_range ht]
    rfl

/-! ### Invariance -/

/-- A sequence's tokens fed alone, a batch each, on one thread. -/
def alone (seq : Int) (batches : List (Batch K)) : List (Batch K) :=
  (tokensOf seq (allTokens batches)).map fun tok =>
    { nth := 1, tokens := [tok], schedule := [0], dst := fun _ _ => 0 }

/-- The run has no fault, and every sequence with a state gets the state and the
outputs it gets alone, which are the causal convolution's. -/
def BatchInvariant (op : Op K) (m : Mixer K) (st : ConvStates K) (batches : List (Batch K)) :
    Prop :=
  ∃ st' outs, op.runBatches st batches = some (st', outs) ∧ ∀ seq b₀, st.at seq = some b₀ →
      ∃ stAlone outsAlone, op.runBatches st (alone seq batches) = some (stAlone, outsAlone) ∧
        st'.at seq = stAlone.at seq ∧ outputsFor seq outs = outputsFor seq outsAlone ∧
        CausalResult m b₀ (tokensOf seq (allTokens batches)) (st'.at seq) (outputsFor seq outs)

theorem allTokens_alone (seq : Int) (batches : List (Batch K)) :
    allTokens (alone seq batches) = tokensOf seq (allTokens batches) := by
  unfold alone allTokens
  rw [flatMap_map]
  exact flatMap_singleton' _

theorem batchInvariant_of_conforms {op : Op K} {m : Mixer K} (hop : Conforms op m)
    (hpos : 0 < m.hist ∨ m.channels = 0) {batches : List (Batch K)}
    (halloc : Allocated m st (allTokens batches)) (hcomplete : ∀ batch ∈ batches, Complete batch) :
    BatchInvariant op m st batches := by
  obtain ⟨st', outs, hrun, hspec⟩ := runBatches_eq hop hpos batches halloc hcomplete
  refine ⟨st', outs, hrun, ?_⟩
  intro seq b₀ hb₀
  have halloc' : Allocated m st (allTokens (alone seq batches)) := by
    rw [allTokens_alone]
    intro tok htok
    exact halloc tok (mem_filter.mp htok).1
  have hcomplete' : ∀ batch ∈ alone seq batches, Complete batch := by
    intro batch hbatch i hi
    obtain ⟨tok, -, rfl⟩ := mem_map.mp hbatch
    obtain rfl : i = 0 := by
      have hlt : i < max 1 1 := hi
      omega
    exact Nat.le_refl 1
  obtain ⟨stA, outsA, hrunA, hspecA⟩ := runBatches_eq hop hpos _ halloc' hcomplete'
  obtain ⟨hstate, hrows⟩ := hspec seq b₀ hb₀
  obtain ⟨hstateA, hrowsA⟩ := hspecA seq b₀ hb₀
  have hidem : tokensOf seq (tokensOf seq (allTokens batches)) = tokensOf seq (allTokens batches) :=
    by simp [tokensOf, filter_filter]
  rw [allTokens_alone, hidem] at hstateA hrowsA
  refine ⟨stA, outsA, hrunA, by rw [hstate, hstateA], by rw [hrows, hrowsA], ?_⟩
  rw [hstate, hrows]
  rcases hpos with hpos | hzero
  · exact causalResult_seq m b₀ _ (Or.inl hpos)
  · exact causalResult_seq m b₀ _ (Or.inr (Or.inl hzero))

omit [CommSemiring K] in
theorem round_no_tokens (op : Op K) (nth : Nat) (s : BatchState K) (ith : Nat) :
    op.round nth [] s ith = some s := by
  unfold Op.round
  cases op.channelRange nth ith <;> rfl

omit [CommSemiring K] in
theorem runBatches_no_tokens (op : Op K) (st : ConvStates K) (batches : List (Batch K))
    (h : ∀ batch ∈ batches, batch.tokens = []) : op.runBatches st batches = some (st, []) := by
  induction batches with
  | nil => rfl
  | cons batch rest ih =>
    have hbatch : op.runBatch st batch = some (st, []) := by
      unfold Op.runBatch
      rw [h batch (by simp)]
      have hrounds : ∀ (l : List Nat) (s : BatchState K),
          l.foldlM (op.round batch.nth []) s = some s := by
        intro l
        induction l with
        | nil => intro s; rfl
        | cons i l ihl =>
          intro s
          rw [foldlM_cons, round_no_tokens]
          exact ihl s
      rw [hrounds]
      rfl
    unfold Op.runBatches
    rw [hbatch]
    show (do let r' ← op.runBatches st rest; pure (r'.1, [] ++ r'.2)) = _
    rw [ih fun b hb => h b (by simp [hb])]
    rfl

theorem batchInvariant_no_tokens (op : Op K) (m : Mixer K) (st : ConvStates K)
    (batches : List (Batch K)) (h : ∀ batch ∈ batches, batch.tokens = []) :
    BatchInvariant op m st batches := by
  have hall : allTokens batches = [] := flatMap_eq_nil_iff.mpr h
  refine ⟨st, [], runBatches_no_tokens op st batches h, ?_⟩
  intro seq b₀ hb₀
  have htoks : tokensOf seq (allTokens batches) = [] := by
    rw [hall]
    rfl
  have halone : alone seq batches = [] := by
    unfold alone
    rw [htoks]
    rfl
  refine ⟨st, [], by rw [halone]; rfl, rfl, rfl, ?_⟩
  rw [htoks, hb₀]
  exact causalResult_seq m b₀ [] (Or.inr (Or.inr rfl))

/-! ### One tap -/

theorem ssmConv1dToken_one_tap (hks : ud.kernelSize = 1)
    (st : ConvStates K) (tok : Token K) (row : Nat → K) {lo hi : Nat} (hlt : lo < hi) :
    ssmConv1dToken ud st tok row lo hi = none := by
  unfold ssmConv1dToken
  cases ud.resolveState st tok.seqId with
  | none => rfl
  | some tgt =>
    simp only [bind_eq_bind, bind_some]
    cases st.buffer tgt with
    | none => rfl
    | some b =>
      rw [bind_some, hks, Nat.sub_self, Nat.mul_zero, ssmConv1dDecode_one_tap b (by omega)]
      rfl

theorem round_one_tap (hks : ud.kernelSize = 1) {nth : Nat}
    {tokens : List (Token K)} {s s' : BatchState K} {ith : Nat}
    (h : (ssmConv1d ud).round nth tokens s ith = some s') :
    s' = s ∧ (ud.channelRange nth ith ≠ none → tokens[s.done ith]? = none) := by
  unfold Op.round at h
  rw [show (ssmConv1d ud).channelRange = ud.channelRange from rfl] at h
  cases hrange : ud.channelRange nth ith with
  | none =>
    rw [hrange] at h
    exact ⟨(some.inj h).symm, fun hne => absurd rfl hne⟩
  | some range =>
    obtain ⟨lo, hi⟩ := range
    rw [hrange] at h
    cases htok : tokens[s.done ith]? with
    | none =>
      rw [htok] at h
      exact ⟨(some.inj h).symm, fun _ => rfl⟩
    | some tok =>
      rw [htok] at h
      have hnone := ssmConv1dToken_one_tap ud hks s.states tok (s.out (s.done ith))
        (channelRange_some ud hrange).1
      dsimp only at h
      rw [show (ssmConv1d ud).token s.states tok (s.out (s.done ith)) lo hi = none from hnone] at h
      cases h

theorem runBatch_one_tap (hks : ud.kernelSize = 1)
    (hch : ud.channels ≠ 0) {batch : Batch K} (hcomplete : Complete batch)
    {r : ConvStates K × List (Int × List K)}
    (h : (ssmConv1d ud).runBatch st batch = some r) : batch.tokens = [] := by
  by_contra hne
  have hlen : 0 < batch.tokens.length := length_pos_iff.mpr hne
  obtain ⟨i, lo, hi, hi', hrange, -, -⟩ :=
    channelRange_owner_exists ud batch.nth (Nat.pos_of_ne_zero hch)
  have hmem : i ∈ batch.schedule := by
    have hcount := hcomplete i hi'
    exact count_pos_iff.mp (by omega)
  -- The state never moves, so task `i` finds its first token in its first round.
  have hrounds : ∀ (l : List Nat) (s s' : BatchState K), s.done i = 0 →
      l.foldlM ((ssmConv1d ud).round batch.nth batch.tokens) s = some s' → i ∉ l := by
    intro l
    induction l with
    | nil => intro s s' _ _; exact not_mem_nil
    | cons j l ih =>
      intro s s' hdone hfold
      rw [foldlM_cons] at hfold
      obtain ⟨s₁, hround, hrest⟩ := bind_eq_some_iff.mp hfold
      obtain ⟨rfl, hnone⟩ := round_one_tap ud hks hround
      intro hmem
      rcases mem_cons.mp hmem with rfl | hmem
      · have hout := hnone (by rw [hrange]; exact some_ne_none _)
        rw [hdone] at hout
        have hle := List.getElem?_eq_none_iff.mp hout
        omega
      · exact ih _ _ hdone hrest hmem
  unfold Op.runBatch at h
  obtain ⟨s', hfold, -⟩ := bind_eq_some_iff.mp h
  exact hrounds batch.schedule _ s' rfl hfold hmem

theorem runBatches_one_tap (hks : ud.kernelSize = 1)
    (hch : ud.channels ≠ 0) (batches : List (Batch K)) : ∀ {st : ConvStates K}
    {r : ConvStates K × List (Int × List K)}, (∀ batch ∈ batches, Complete batch) →
    (ssmConv1d ud).runBatches st batches = some r → ∀ batch ∈ batches, batch.tokens = [] := by
  induction batches with
  | nil => intro st r _ _ batch hbatch; cases hbatch
  | cons first rest ih =>
    intro st r hcomplete h
    unfold Op.runBatches at h
    obtain ⟨r₁, h₁, h₂⟩ := bind_eq_some_iff.mp h
    obtain ⟨r₂, h₃, -⟩ := bind_eq_some_iff.mp h₂
    have hfirst := runBatch_one_tap ud hks hch (hcomplete first (by simp)) h₁
    have hrest := ih (fun b hb => hcomplete b (by simp [hb])) h₃
    intro batch hbatch
    rcases mem_cons.mp hbatch with rfl | hmem
    · exact hfirst
    · exact hrest batch hmem

/-- **Batch, chunk and thread invariance.**  For `cb_ssm_conv1d` with a positive
kernel size it holds exactly when the kernel has two taps or more, or there are no
channels, or no tokens; for `cb_lfm2_shortconv` it holds with two taps or more. -/
theorem recurrent_conv_invariant_iff :
    (∀ (ud : SsmConv1dUserData K) (st : ConvStates K) (batches : List (Batch K)),
      1 ≤ ud.kernelSize → Allocated (ssmMixer ud) st (allTokens batches) →
      (∀ batch ∈ batches, Complete batch) →
      (BatchInvariant (ssmConv1d ud) (ssmMixer ud) st batches ↔
        2 ≤ ud.kernelSize ∨ ud.channels = 0 ∨ ∀ batch ∈ batches, batch.tokens = [])) ∧
      ∀ (ud : Lfm2ShortConvUserData K) (st : ConvStates K) (batches : List (Batch K)),
        2 ≤ ud.kernel → Allocated (lfm2Mixer ud) st (allTokens batches) →
        (∀ batch ∈ batches, Complete batch) →
        BatchInvariant (lfm2ShortConv ud) (lfm2Mixer ud) st batches := by
  refine ⟨?_, ?_⟩
  · intro ud st batches hks halloc hcomplete
    have hhist : (ssmMixer ud).hist = ud.kernelSize - 1 := rfl
    refine ⟨?_, ?_⟩
    · intro hinv
      obtain ⟨st', outs, hrun, -⟩ := hinv
      by_cases htwo : 2 ≤ ud.kernelSize
      · exact Or.inl htwo
      by_cases hch : ud.channels = 0
      · exact Or.inr (Or.inl hch)
      exact Or.inr (Or.inr (runBatches_one_tap ud (by omega) hch batches hcomplete hrun))
    intro hcond
    rcases hcond with htwo | hch | hnone
    · exact batchInvariant_of_conforms (ssmConv1d_conforms ud (Or.inl htwo))
        (Or.inl (by omega)) halloc hcomplete
    · exact batchInvariant_of_conforms (ssmConv1d_conforms ud (Or.inr hch)) (Or.inr hch)
        halloc hcomplete
    · exact batchInvariant_no_tokens _ _ st batches hnone
  · intro ud st batches hk halloc hcomplete
    have hhist : (lfm2Mixer ud).hist = ud.kernel - 1 := rfl
    exact batchInvariant_of_conforms (lfm2ShortConv_conforms ud hk) (Or.inl (by omega)) halloc
      hcomplete

section Examples

/-- A sum filter over one channel. -/
def sumFilter (kernelSize : Nat) : SsmConv1dUserData Nat where
  weight := fun _ => 1
  channels := 1
  kernelSize := kernelSize
  applySilu := false
  silu := id
  singleTask := false

/-- Two sequences with states of the given size. -/
def zeroStates (size : Nat) : ConvStates Nat where
  runtime := fun seq => if seq < 2 then some ⟨size, fun _ => 0⟩ else none
  fallback := none

/-- A token of either sequence, on two threads that alternate. -/
def mixedBatch : Batch Nat where
  nth := 2
  tokens := [⟨0, fun _ => 3⟩, ⟨1, fun _ => 5⟩]
  schedule := [1, 0, 0, 1]
  dst := fun _ _ => 0

private theorem mixedBatch_complete : ∀ batch ∈ [mixedBatch], Complete batch := by
  intro batch hbatch
  obtain rfl := mem_singleton.mp hbatch
  show ∀ i, i < 2 → 2 ≤ List.count i [1, 0, 0, 1]
  decide

private theorem mixedBatch_allocated {kernelSize size : Nat} (h : 1 * (kernelSize - 1) ≤ size) :
    Allocated (ssmMixer (sumFilter kernelSize)) (zeroStates size) (allTokens [mixedBatch]) := by
  intro tok htok
  refine ⟨⟨size, fun _ => 0⟩, ?_, h⟩
  have hmem : tok ∈ mixedBatch.tokens := htok
  rcases mem_cons.mp hmem with rfl | hmem
  · rfl
  obtain rfl := mem_singleton.mp hmem
  rfl

/-- Two taps on the mixed batch. -/
theorem recurrent_conv_invariant_two_taps :
    BatchInvariant (ssmConv1d (sumFilter 2)) (ssmMixer (sumFilter 2)) (zeroStates 1) [mixedBatch] :=
  (recurrent_conv_invariant_iff.1 (sumFilter 2) (zeroStates 1) [mixedBatch] (by decide)
    (mixedBatch_allocated (by decide)) mixedBatch_complete).mpr (Or.inl (by decide))

/-- One tap on the mixed batch: the states `Init` allocates are empty, and the first
token ends the process; a longer vector is written at index `-1`. -/
theorem one_tap_faults :
    Allocated (ssmMixer (sumFilter 1)) (zeroStates 0) (allTokens [mixedBatch]) ∧
      Complete mixedBatch ∧
      (ssmConv1d (sumFilter 1)).runBatches (zeroStates 0) [mixedBatch] = none ∧
      (ssmConv1d (sumFilter 1)).runBatches (zeroStates 1) [mixedBatch] = none ∧
      ¬ BatchInvariant (ssmConv1d (sumFilter 1)) (ssmMixer (sumFilter 1)) (zeroStates 0)
        [mixedBatch] := by
  have hnone : (ssmConv1d (sumFilter 1)).runBatches (zeroStates 0) [mixedBatch] = none := rfl
  refine ⟨mixedBatch_allocated (by decide), mixedBatch_complete _ (by simp), hnone, rfl, ?_⟩
  intro hinv
  obtain ⟨st', outs, hrun, -⟩ := hinv
  rw [hnone] at hrun
  cases hrun

end Examples

end DenseCore.Ssm
