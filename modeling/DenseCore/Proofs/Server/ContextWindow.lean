/-
What the context check leaves out.

Counting and running go through one tokenizer, so for a prompt whose text reaches the
tokenizer as it is they differ by the BOS token alone.  The check counts without it, so a
prompt that gets one and fills the context exactly is accepted with one token too many.

Rendered prompts always reach the tokenizer as they are.  A prompt submitted as plain text
does where the engine has no template to put around it and does not prime it
(`SubmitsUnchanged`).  Elsewhere the engine runs another text than the one that was counted,
so that nothing ties the two numbers together.
-/
import DenseCore.Server.ContextWindow

namespace DenseCore.Server

open Lib DenseCore.Runtime PromptModel Option

variable (m : PromptModel) (env : ThinkingEnv)

/-! ### The tokenizer of a family is one of these -/

theorem tokenize_eq_models (vocab : Models.Vocabulary) (text : Bytes) (addBos addEos : Bool)
    (hvocab : m.vocabTokens = vocab.vocabTokens) (hbos : m.bosTokenId = vocab.bosTokenId)
    (hend : m.endTokenId = vocab.eosTokenId) (htext : m.textIds = textIdsOf vocab) :
    m.tokenize text addBos addEos = some (Models.tokenize vocab text addBos addEos) := by
  unfold tokenize Models.tokenize bosIds eosIds
    promptBeginsWithBosLiteral Models.promptBeginsWithBosLiteral
  rw [htext, hvocab, hbos, hend]
  split
  · rfl
  · rfl

/-! ### Counting and running -/

variable (prompt : Bytes) (rendered : Bool)

/-- A BOS token goes in front of a rendered prompt. -/
def bosAdded : Prop :=
  m.bosIds (cString prompt)
    (m.resolveAddBosForPrompt (cString prompt)) ≠ []

theorem length_bosIds (text : Bytes) (addBos : Bool) : (m.bosIds text addBos).length ≤ 1 := by
  unfold bosIds
  split
  · exact Nat.le_refl 1
  · exact Nat.zero_le 1

theorem tokenize_plain (text : Bytes) (addBos : Bool) : m.tokenize text addBos false =
      (m.tokenize text false false).map (m.bosIds text addBos ++ ·) := by
  have hnone : m.bosIds text false = [] := rfl
  have heos : m.eosIds false = [] := rfl
  unfold tokenize
  rw [hnone, heos]
  split
  · rfl
  rw [map_map]
  congr 1
  funext ids
  simp

theorem submittedIds_rendered :
    m.submittedIds env true prompt = (m.tokenize (cString prompt) false false).map
      (m.bosIds (cString prompt) (m.resolveAddBosForPrompt (cString prompt)) ++ ·) := by
  have hids : m.submittedIds env true prompt = m.tokenize (cString prompt)
      (m.resolveAddBosForPrompt (cString prompt)) false := by
    show Option.bind _ some = _
    exact bind_fun_some _
  rw [hids, tokenize_plain m _ (m.resolveAddBosForPrompt _)]

/-! ### The check -/

theorem inputTokenCount_text :
    inputTokenCount m (textPrompt prompt rendered) [] = m.countTokens prompt false false := by
  unfold inputTokenCount textPrompt
  rw [if_neg (by simp), if_neg (by simp)]
  split
  · rfl
  rename_i hempty
  have hnil : prompt = [] := not_not.mp hempty
  rw [hnil]
  rfl

/-- What the check accepts. -/
theorem validate_ok_iff (maxTokens : Int) :
    validatePreparedContextWindow (some m) (textPrompt prompt rendered) [] maxTokens = .ok () ↔
      m.nCtx ≤ 0 ∨ ∃ n, m.countTokens prompt false false = some n ∧
        (n = 0 ∨ n + maxTokens ≤ m.nCtx) := by
  unfold validatePreparedContextWindow getMaxContextTokens
  dsimp only
  rw [inputTokenCount_text]
  by_cases hctx : m.nCtx ≤ 0
  · rw [if_pos hctx]
    exact ⟨fun _ => Or.inl hctx, fun _ => rfl⟩
  rw [if_neg hctx]
  cases hcount : m.countTokens prompt false false with
  | none => simp [hctx]
  | some n =>
    dsimp only
    split
    · rename_i hover
      refine Iff.intro (fun h => nomatch h) (fun h => ?_)
      rcases h with h | ⟨k, hk, h⟩
      · exact absurd h hctx
      have := some.inj hk
      omega
    rename_i hover
    refine ⟨fun _ => Or.inr ⟨n, rfl, ?_⟩, fun _ => rfl⟩
    omega

/-- An accepted prompt runs within the context limit. -/
def CheckSound (prompt : Bytes) (maxTokens : Int) : Prop :=
  validatePreparedContextWindow (some m) (textPrompt prompt rendered) [] maxTokens = .ok () →
    ∀ ids, m.submittedIds env rendered prompt = some ids →
      ids.length + maxTokens ≤ m.getMaxContextTokens

/-- The text of a plain prompt reaches the tokenizer as it is: no template goes around it,
and the model is not primed. -/
def SubmitsUnchanged : Prop :=
  (m.chatTemplate = none ∨ cString prompt = [] ∨ promptAlreadyTemplated (cString prompt) = true) ∧
    m.shouldPrimeQwenNoThinkingPromptText env = false ∧
    m.shouldPrimeQwenNoThinkingPrompt env = false

/-- A prompt that has tokens and is checked must not fill the context exactly
and get a BOS token; one that is not checked has to fit with its BOS token. -/
def RenderedFits (maxTokens : Int) : Prop :=
  ∀ n, m.countTokens prompt false false = some n →
    (0 < n ∧ 0 < m.nCtx → ¬ (bosAdded m prompt ∧ n + maxTokens = m.nCtx)) ∧
      (n = 0 ∨ m.nCtx ≤ 0 → n + (m.bosIds (cString prompt)
        (m.resolveAddBosForPrompt (cString prompt))).length + maxTokens ≤ m.nCtx)

theorem applyAutoChatTemplate_unchanged {text : Bytes}
    (h : m.chatTemplate = none ∨ text = [] ∨ promptAlreadyTemplated text = true) :
    m.applyAutoChatTemplate text = text := by
  unfold applyAutoChatTemplate
  split
  · rfl
  rename_i hempty
  split
  · rfl
  rename_i hplain
  rcases h with h | h | h
  · rw [h]
  · exact absurd (by rw [h]; rfl) hempty
  · exact absurd h hplain

theorem maybePrimeTokens_off (hprime : m.shouldPrimeQwenNoThinkingPrompt env = false)
    (ids : List Nat) : m.maybePrimeTokens env ids = some ids := by
  simp [maybePrimeTokens, hprime]

/-- Such a prompt runs as it would if it came rendered. -/
theorem submittedIds_unchanged (h : SubmitsUnchanged m env prompt) :
    m.submittedIds env false prompt = m.submittedIds env true prompt := by
  obtain ⟨htemplate, htext, htokens⟩ := h
  have hrendered : m.renderedPrompt env false prompt = m.renderedPrompt env true prompt := by
    show m.maybePrimeText env (m.applyAutoChatTemplate (cString prompt)) = cString prompt
    rw [applyAutoChatTemplate_unchanged m htemplate]
    unfold maybePrimeText
    rw [if_neg (by simp [htext])]
  unfold submittedIds
  rw [hrendered]
  dsimp only
  congr 1
  funext ids
  simp [maybePrimeTokens_off m env htokens]

/-- For a rendered prompt the check is sound just where the submission fits. -/
theorem checkSound_rendered_iff (maxTokens : Int) :
    CheckSound m env true prompt maxTokens ↔ RenderedFits m prompt maxTokens := by
  unfold CheckSound RenderedFits bosAdded getMaxContextTokens
  rw [validate_ok_iff, submittedIds_rendered]
  unfold countTokens
  have hone := length_bosIds m (cString prompt) (m.resolveAddBosForPrompt (cString prompt))
  generalize m.bosIds (cString prompt) (m.resolveAddBosForPrompt (cString prompt)) = bos at hone ⊢
  cases m.tokenize (cString prompt) false false with
  | none => exact Iff.intro (fun _ n hn => nomatch hn) (fun _ _ ids hids => nomatch hids)
  | some ids =>
    constructor
    · intro h n hn
      have hlen : ids.length = n := some.inj hn
      have hrun := fun haccepted => h haccepted (bos ++ ids) rfl
      rw [List.length_append] at hrun
      refine ⟨fun hchecked hfull => ?_, fun hskipped => ?_⟩
      · have hpos : bos.length ≠ 0 := fun hzero => hfull.1 (List.length_eq_zero_iff.mp hzero)
        have := hrun (Or.inr ⟨n, hn, Or.inr (by omega)⟩)
        omega
      · have := hrun (hskipped.symm.imp_right fun hzero => ⟨n, hn, Or.inl hzero⟩)
        omega
    · intro h haccepted run hrun
      obtain ⟨hfull, hskipped⟩ := h ids.length rfl
      rw [← some.inj hrun, List.length_append]
      by_cases hchecked : 0 < ids.length ∧ 0 < m.nCtx
      · have hroom : (ids.length : Int) + maxTokens ≤ m.nCtx := by
          rcases haccepted with hctx | ⟨n, hn, hroom⟩
          · omega
          · have : ids.length = n := some.inj hn
            omega
        -- BOS is at most one token, which only a full context has no room for.
        have hexact := hfull hchecked
        by_cases hbos : bos = []
        · rw [hbos, List.length_nil]
          omega
        · have : ¬ ((ids.length : Int) + maxTokens = m.nCtx) := fun heq => hexact ⟨hbos, heq⟩
          omega
      · have := hskipped (by omega)
        omega

/-- An LFM2 model with four tokens, that wants BOS, and a context of two tokens. -/
def smallVocabulary : Models.Vocabulary where
  family := .lfm2ByteBpe
  vocabTokens := [literal "<|startoftext|>", literal "<|im_start|>", [97], [98]]
  tokenToId := fun token =>
    if token = literal "<|startoftext|>" then some 0
    else if token = literal "<|im_start|>" then some 1
    else if token = [97] then some 2
    else if token = [98] then some 3
    else none
  bpeMergeRanks := fun key => if key = Models.makeMergeKey [97] [98] then some 0 else none
  hasMerges := ⟨Models.makeMergeKey [97] [98], by rw [if_pos rfl]; rfl⟩
  bosTokenId := 0

def smallModel : PromptModel where
  variant := .other
  descriptorVariant := .other
  usesQwenThinkingEnv := false
  vocabTokens := smallVocabulary.vocabTokens
  bosTokenId := 0
  endTokenId := -1
  tokenizerAddBos := true
  nCtx := 2
  textIds := textIdsOf smallVocabulary
  detokenizeMultiple := fun _ => []
  chatTemplate := none

end DenseCore.Server
