/-
Filters of a stream.

A filter is fed a text in chunks.  For each of them it sends something on and changes
its state, and at the end it is flushed.  What a chunk keeps, of all that was fed and
all that was sent on, is kept by any cut of the text into chunks; a run whose chunks
are all fed under a condition is a case of its own.
-/
import Mathlib.Data.List.Basic

namespace DenseCore.Lib

open List

/-- A filter with states `σ`; `none` is a failure. -/
structure StreamFilter (σ α : Type) where
  start : σ
  filter : σ → List α → Option (List α × σ)
  flush : σ → Option (List α)

namespace StreamFilter

variable {σ α : Type} (F : StreamFilter σ α)

/-- What is sent on for the chunks, one after the other, and the state behind them. -/
def feed : σ → List (List α) → Option (List α × σ)
  | s, [] => some ([], s)
  | s, chunk :: rest => do
      let (out, s) ← F.filter s chunk
      let (outs, s) ← feed s rest
      return (out ++ outs, s)

/-- What is sent on for a text that was cut into chunks, the flush included. -/
def stream (chunks : List (List α)) : Option (List α) := do
  let (out, s) ← F.feed F.start chunks
  let last ← F.flush s
  return out ++ last

variable {F} {Ok : List α → Prop} {Inv : List α → List α → σ → Prop}

/-- Every chunk keeps `Inv`, of what was fed, what was sent on, and the state, as long as
the text that was fed is `Ok`. -/
def Keeps (F : StreamFilter σ α) (Ok : List α → Prop) (Inv : List α → List α → σ → Prop) :
    Prop :=
  ∀ seen sent s chunk, Ok (seen ++ chunk) → Inv seen sent s →
    ∃ out s', F.filter s chunk = some (out, s') ∧ Inv (seen ++ chunk) (sent ++ out) s'

theorem Keeps.feed (h : Keeps F Ok Inv) : ∀ (chunks : List (List α)) {seen sent : List α} {s : σ},
      (∀ u, u <+: seen ++ chunks.flatten → Ok u) → Inv seen sent s →
        ∃ out s', F.feed s chunks = some (out, s') ∧
          Inv (seen ++ chunks.flatten) (sent ++ out) s' := by
  intro chunks
  induction chunks with
  | nil =>
    intro seen sent s _ hinv
    exact ⟨[], s, rfl, by simpa using hinv⟩
  | cons chunk rest ih =>
    intro seen sent s hok hinv
    rw [flatten_cons, ← append_assoc] at hok
    have hnow : Ok (seen ++ chunk) := hok _ (prefix_append _ _)
    obtain ⟨out, s₁, hfilter, hinv₁⟩ := h seen sent s chunk hnow hinv
    obtain ⟨outs, s₂, hrest, hinv₂⟩ := ih hok hinv₁
    refine ⟨out ++ outs, s₂, ?_, ?_⟩
    · rw [StreamFilter.feed, hfilter]
      simp only [Option.bind_eq_bind, Option.bind_some, hrest]
      rfl
    · simpa only [flatten_cons, append_assoc] using hinv₂

/-- **A stream from its chunks**: what the flush makes of `Inv` holds of the whole text
and everything that was sent on. -/
theorem Keeps.stream (Result : List α → List α → Prop) (h : Keeps F Ok Inv)
    (hstart : Inv [] [] F.start)
    (hflush : ∀ seen sent s, Ok seen → Inv seen sent s →
      ∃ last, F.flush s = some last ∧ Result seen (sent ++ last))
    (chunks : List (List α)) (hok : ∀ u, u <+: chunks.flatten → Ok u) :
    ∃ out, F.stream chunks = some out ∧ Result chunks.flatten out := by
  obtain ⟨out, s, hfeed, hinv⟩ := h.feed chunks hok hstart
  obtain ⟨last, hlast, hresult⟩ := hflush _ _ s (hok _ prefix_rfl) hinv
  refine ⟨out ++ last, ?_, hresult⟩
  rw [StreamFilter.stream, hfeed]
  simp only [Option.bind_eq_bind, Option.bind_some, hlast]
  rfl

end StreamFilter

end DenseCore.Lib
