/-
The words of JSON, as the parser takes them.

White space, the parts of a number and the bodies of strings: each is taken as long
as it can be (`takeNumber_append`, `parseString_append`), and what is taken has the
form that the grammar asks for (`takeNumber_sound`, `parseString_sound`).
-/
import DenseCore.Lib.JsonValue

namespace DenseCore.Lib.Json

open Option hiding all_eq_true

open List

/-! ### White space -/

/-- White space, as the parser skips it. -/
def Blank (w : Bytes) : Prop := ∀ c ∈ w, isWs c = true

attribute [local simp] rawBody joinPieces

theorem Blank.nil : Blank [] := fun _ hc => absurd hc not_mem_nil

theorem skipWs_append {w : Bytes} (hw : Blank w) (s : Bytes) : skipWs (w ++ s) = skipWs s := by
  unfold skipWs
  exact dropWhile_append_of_pos hw

theorem skipWs_blank {w : Bytes} (hw : Blank w) : skipWs w = [] := by
  have h := skipWs_append hw []
  rwa [append_nil] at h

variable {c : UInt8} {s ds rest x int body q : Bytes} {cls isSign isLead : UInt8 → Bool}

theorem skipWs_cons (hc : isWs c = false) (s : Bytes) : skipWs (c :: s) = c :: s := by
  unfold skipWs
  rw [dropWhile_cons, if_neg (by simp [hc])]

theorem exists_skipWs (s : Bytes) : ∃ w, Blank w ∧ s = w ++ skipWs s := by
  refine ⟨s.takeWhile isWs, fun c hc => ?_, ?_⟩
  · exact all_eq_true.mp all_takeWhile c hc
  · exact takeWhile_append_dropWhile.symm

theorem blank_of_skipWs (h : skipWs s = []) : Blank s := by
  obtain ⟨w, hw, hs⟩ := exists_skipWs s
  rw [h, append_nil] at hs
  rw [hs]
  exact hw

/-! ### Numbers -/

theorem isDigit_iff : isDigit c = true ↔ IsDigit c := by
  unfold isDigit IsDigit
  rw [Bool.and_eq_true, decide_eq_true_iff, decide_eq_true_iff]

/-- What follows does not begin with a byte of the class. -/
def Stops (cls : UInt8 → Bool) (s : Bytes) : Prop := ∀ c rest, s = c :: rest → cls c = false

theorem Stops.nil (cls : UInt8 → Bool) : Stops cls [] := fun _ _ h => by cases h

theorem Stops.cons (hc : cls c = false) (s : Bytes) : Stops cls (c :: s) := fun d rest h => by
  cases h
  exact hc

theorem takeDigits_append (hds : ∀ c ∈ ds, IsDigit c) (hs : Stops isDigit s) :
    takeDigits (ds ++ s) = (ds, s) := by
  unfold takeDigits
  rw [span_eq_takeWhile_dropWhile, takeWhile_append_of_pos fun c hc => isDigit_iff.mpr (hds c hc),
    dropWhile_append_of_pos fun c hc => isDigit_iff.mpr (hds c hc)]
  cases s with
  | nil => simp
  | cons c rest =>
    have hc := hs c rest rfl
    rw [takeWhile_cons, dropWhile_cons, if_neg (by simp [hc]), if_neg (by simp [hc]), append_nil]

theorem takeDigits_spec (s : Bytes) :
    s = (takeDigits s).1 ++ (takeDigits s).2 ∧ (∀ c ∈ (takeDigits s).1, IsDigit c) ∧
      Stops isDigit (takeDigits s).2 := by
  unfold takeDigits
  rw [span_eq_takeWhile_dropWhile]
  refine ⟨takeWhile_append_dropWhile.symm, fun c hc => ?_, fun c rest hs => ?_⟩
  · exact isDigit_iff.mp (all_eq_true.mp all_takeWhile c hc)
  have hdrop := head?_dropWhile_not isDigit s
  simp only at hs
  rw [hs] at hdrop
  exact hdrop

theorem takeDigits1_append (hds : IsDigits ds) (hs : Stops isDigit s) :
    takeDigits1 (ds ++ s) = some (ds, s) := by
  unfold takeDigits1
  rw [takeDigits_append hds.2 hs]
  exact if_neg hds.1

theorem takeDigits1_sound (h : takeDigits1 s = some (ds, rest)) : s = ds ++ rest ∧ IsDigits ds := by
  unfold takeDigits1 at h
  split at h
  · cases h
  rename_i hne
  obtain ⟨hsplit, hdigits, -⟩ := takeDigits_spec s
  have heq := some.inj h
  rw [heq] at hsplit hdigits hne
  exact ⟨hsplit, hne, hdigits⟩

/-- A sign or none. -/
def IsSign (isSign : UInt8 → Bool) (sign : Bytes) : Prop :=
  sign = [] ∨ ∃ e, isSign e = true ∧ sign = [e]

theorem takeSign_append {sign : Bytes} (h : IsSign isSign sign)
    (hs : sign = [] → Stops isSign s) : takeSign isSign (sign ++ s) = (sign, s) := by
  rcases h with rfl | ⟨e, he, rfl⟩
  · cases s with
    | nil => rfl
    | cons c rest => exact if_neg (by simp [hs rfl c rest rfl])
  · exact if_pos he

theorem takeSign_sound (isSign : UInt8 → Bool) (s : Bytes) :
    s = (takeSign isSign s).1 ++ (takeSign isSign s).2 ∧ IsSign isSign (takeSign isSign s).1 := by
  cases s with
  | nil => exact ⟨rfl, Or.inl rfl⟩
  | cons c rest =>
    by_cases hc : isSign c = true
    · rw [takeSign, if_pos hc]
      exact ⟨rfl, Or.inr ⟨c, hc, rfl⟩⟩
    rw [takeSign, if_neg hc]
    exact ⟨rfl, Or.inl rfl⟩

theorem IsDigits.stops (h : IsDigits ds)
    (hcls : ∀ c, isDigit c = true → cls c = false) (s : Bytes) : Stops cls (ds ++ s) := by
  obtain ⟨d, rest, rfl⟩ := exists_cons_of_ne_nil h.1
  exact Stops.cons (hcls d (isDigit_iff.mpr (h.2 d mem_cons_self))) _

/-- A part of a number: nothing, or its lead byte, perhaps a sign, and digits. -/
def IsPart (isLead isSign : UInt8 → Bool) (x : Bytes) : Prop :=
  x = [] ∨ ∃ c sign ds, isLead c = true ∧ IsSign isSign sign ∧ IsDigits ds ∧ x = c :: sign ++ ds

theorem takePart_append
    (hsign : ∀ c, isDigit c = true → isSign c = false) (hx : IsPart isLead isSign x)
    (hlead : x = [] → Stops isLead s) (hs : Stops isDigit s) :
    takePart isLead isSign (x ++ s) = some (x, s) := by
  rcases hx with rfl | ⟨c, sign, ds, hc, hsigns, hds, rfl⟩
  · cases s with
    | nil => rfl
    | cons c rest => exact if_neg (by simp [hlead rfl c rest rfl])
  have htake : takeSign isSign (sign ++ (ds ++ s)) = (sign, ds ++ s) :=
    takeSign_append hsigns fun _ => hds.stops hsign s
  rw [cons_append, cons_append, append_assoc, takePart, if_pos hc, htake, takeDigits1_append hds hs]
  rfl

theorem takePart_sound
    (h : takePart isLead isSign s = some (x, rest)) : s = x ++ rest ∧ IsPart isLead isSign x := by
  cases s with
  | nil =>
    cases h
    exact ⟨rfl, Or.inl rfl⟩
  | cons c tail =>
    by_cases hc : isLead c = true
    · rw [takePart, if_pos hc] at h
      obtain ⟨⟨ds, rest'⟩, hdigits, heq⟩ := map_eq_some_iff.mp h
      cases heq
      obtain ⟨hsplit, hds⟩ := takeDigits1_sound hdigits
      obtain ⟨hall, hsigns⟩ := takeSign_sound isSign tail
      refine ⟨?_, Or.inr ⟨c, _, ds, hc, hsigns, hds, rfl⟩⟩
      rw [cons_append, cons_append, append_assoc, ← hsplit, ← hall]
    rw [takePart, if_neg hc] at h
    cases h
    exact ⟨rfl, Or.inl rfl⟩

theorem takeInt_append (hint : IsIntPart int) (hs : Stops isDigit s) :
    takeInt (int ++ s) = some (int, s) := by
  rcases hint with rfl | ⟨hdigits, hzero⟩
  · rfl
  obtain ⟨d, ds, rfl⟩ := exists_cons_of_ne_nil hdigits.1
  have hd : d ≠ 0x30 := by
    rintro rfl
    exact hzero rfl
  rw [cons_append, takeInt, if_neg hd, ← cons_append, takeDigits1_append hdigits hs]

theorem takeInt_sound (h : takeInt s = some (int, rest)) : s = int ++ rest ∧ IsIntPart int := by
  cases s with
  | nil => cases h
  | cons c tail =>
    rw [takeInt] at h
    by_cases hc : c = 0x30
    · rw [if_pos hc] at h
      cases h
      exact ⟨rfl, Or.inl (by rw [hc])⟩
    rw [if_neg hc] at h
    obtain ⟨hsplit, hdigits⟩ := takeDigits1_sound h
    refine ⟨hsplit, Or.inr ⟨hdigits, ?_⟩⟩
    obtain ⟨d, ds, rfl⟩ := exists_cons_of_ne_nil hdigits.1
    obtain ⟨rfl, -⟩ := List.cons.inj hsplit
    intro hhead
    exact hc (some.inj hhead)

/-- A number that is written out, in its parts. -/
structure NumberParts (minus int frac exp : Bytes) : Prop where
  minus : IsSign (· == 0x2D) minus
  int : IsIntPart int
  frac : IsPart (· == 0x2E) (fun _ => false) frac
  exp : IsPart (fun c => c == 0x65 || c == 0x45) (fun c => c == 0x2B || c == 0x2D) exp

/-- What the scanner of numbers takes as a whole. -/
def IsNumberText (lit : Bytes) : Prop :=
  ∃ minus int frac exp, NumberParts minus int frac exp ∧ lit = minus ++ int ++ frac ++ exp

/-- The bytes that could go on with a number. -/
def goesOn (c : UInt8) : Bool := isDigit c || c == 0x2E || c == 0x65 || c == 0x45

theorem Stops.mono {cls' : UInt8 → Bool} (h : Stops cls s)
    (hcls : ∀ c, cls' c = true → cls c = true) : Stops cls' s := by
  intro c rest hs
  cases hc : cls' c with
  | false => rfl
  | true =>
    have := h c rest hs
    rw [hcls c hc] at this
    cases this

theorem IsPart.stops (hx : IsPart isLead isSign x)
    (hlead : ∀ c, isLead c = true → cls c = false) (hs : Stops cls s) : Stops cls (x ++ s) := by
  rcases hx with rfl | ⟨c, sign, ds, hc, -, -, rfl⟩
  · exact hs
  · exact Stops.cons (hlead c hc) _

theorem IsIntPart.stops_minus (h : IsIntPart int) (s : Bytes) : Stops (· == 0x2D) (int ++ s) := by
  rcases h with rfl | ⟨hdigits, -⟩
  · exact Stops.cons rfl s
  refine hdigits.stops (fun c hc => ?_) s
  rw [beq_eq_false_iff_ne]
  rintro rfl
  cases hc

theorem isDigit_not_lead (h : (c == 0x2E || c == 0x65 || c == 0x45) = true) :
    isDigit c = false := by
  simp only [Bool.or_eq_true, beq_iff_eq] at h
  rcases h with (rfl | rfl) | rfl <;> rfl

theorem NumberParts.take {minus frac exp : Bytes} (h : NumberParts minus int frac exp)
    (hs : Stops goesOn s) :
    takeMinus (minus ++ (int ++ (frac ++ (exp ++ s)))) = (minus, int ++ (frac ++ (exp ++ s))) ∧
      takeInt (int ++ (frac ++ (exp ++ s))) = some (int, frac ++ (exp ++ s)) ∧
        takeFrac (frac ++ (exp ++ s)) = some (frac, exp ++ s) ∧
          takeExp (exp ++ s) = some (exp, s) := by
  have hdigit : Stops isDigit s := hs.mono fun c hc => by simp [goesOn, hc]
  have hexp : Stops isDigit (exp ++ s) := by
    refine h.exp.stops (fun c hc => isDigit_not_lead ?_) hdigit
    simp only [Bool.or_eq_true] at hc ⊢
    tauto
  have hfrac : Stops isDigit (frac ++ (exp ++ s)) := by
    refine h.frac.stops (fun c hc => isDigit_not_lead ?_) hexp
    simp only [Bool.or_eq_true] at hc ⊢
    tauto
  refine ⟨takeSign_append h.minus fun _ => h.int.stops_minus _, takeInt_append h.int hfrac, ?_, ?_⟩
  · refine takePart_append (fun _ _ => rfl) h.frac (fun _ => ?_) hexp
    refine h.exp.stops (fun c hc => ?_) (hs.mono fun c hc => ?_)
    · simp only [Bool.or_eq_true, beq_iff_eq] at hc
      rcases hc with rfl | rfl <;> rfl
    · simp [goesOn, hc]
  refine takePart_append (fun c hc => ?_) h.exp (fun _ => hs.mono fun c hc => ?_) hdigit
  · simp only [Bool.or_eq_false_iff, beq_eq_false_iff_ne]
    constructor <;> rintro rfl <;> cases hc
  simp only [Bool.or_eq_true] at hc
  simp only [goesOn, Bool.or_eq_true]
  tauto

theorem takeNumber_append {lit : Bytes} (h : IsNumberText lit) (hs : Stops goesOn s) :
    takeNumber (lit ++ s) = some (lit, s) := by
  obtain ⟨minus, int, frac, exp, hparts, rfl⟩ := h
  obtain ⟨hminus, hint, hfrac, hexp⟩ := hparts.take hs
  rw [append_assoc, append_assoc, append_assoc, takeNumber, hminus]
  simp only [hint, hfrac, hexp, bind, bind_some, pure]

theorem takeNumber_sound {lit : Bytes} (h : takeNumber s = some (lit, rest)) :
    s = lit ++ rest ∧ IsNumberText lit := by
  unfold takeNumber at h
  obtain ⟨hminus, hsign⟩ := takeSign_sound (· == 0x2D) s
  simp only [bind, bind_eq_some_iff, pure, some.injEq, Prod.mk.injEq] at h
  obtain ⟨⟨int, s₁⟩, hint, ⟨frac, s₂⟩, hfrac, ⟨exp, s₃⟩, hexp, rfl, rfl⟩ := h
  obtain ⟨hint', hisint⟩ := takeInt_sound hint
  obtain ⟨hfrac', hisfrac⟩ := takePart_sound hfrac
  obtain ⟨hexp', hisexp⟩ := takePart_sound hexp
  refine ⟨?_, _, int, frac, exp, ⟨hsign, hisint, hisfrac, hisexp⟩, rfl⟩
  have hminus' : s = (takeMinus s).1 ++ (takeMinus s).2 := hminus
  simp only at hint' hfrac' hexp' ⊢
  rw [append_assoc, append_assoc, append_assoc, ← hexp', ← hfrac', ← hint']
  exact hminus'

/-! ### Strings -/

/-- The body of a string, and what it stands for. -/
def IsBody (body text : Bytes) : Prop :=
  rawBody false (body ++ [0x22]) = some (body, []) ∧ (unescape body).map Utf8.sanitize = some text

theorem rawBody_append {b : Bool} (h : rawBody b s = some (body, rest))
    (t : Bytes) : rawBody b (s ++ t) = some (body, rest ++ t) := by
  induction s generalizing b body with
  | nil => cases b <;> cases h
  | cons c tail ih =>
    cases b with
    | true =>
      rw [rawBody] at h
      obtain ⟨⟨body', rest'⟩, hbody, heq⟩ := map_eq_some_iff.mp h
      cases heq
      rw [cons_append, rawBody, ih hbody]
      rfl
    | false =>
      rw [rawBody] at h
      rw [cons_append, rawBody]
      split
      · rename_i hquote
        rw [if_pos hquote] at h
        cases h
        rfl
      rename_i hquote
      rw [if_neg hquote] at h
      split
      · rename_i hcontrol
        rw [if_pos hcontrol] at h
        cases h
      rename_i hcontrol
      rw [if_neg hcontrol] at h
      obtain ⟨⟨body', rest'⟩, hbody, heq⟩ := map_eq_some_iff.mp h
      cases heq
      rw [ih hbody]
      rfl

theorem rawBody_sound {b : Bool} (h : rawBody b s = some (body, rest)) :
    s = body ++ 0x22 :: rest ∧ rawBody b (body ++ [0x22]) = some (body, []) := by
  induction s generalizing b body with
  | nil => cases b <;> cases h
  | cons c tail ih =>
    cases b with
    | true =>
      rw [rawBody] at h
      obtain ⟨⟨body', rest'⟩, hbody, heq⟩ := map_eq_some_iff.mp h
      cases heq
      obtain ⟨hsplit, hself⟩ := ih hbody
      refine ⟨by rw [cons_append, ← hsplit], ?_⟩
      rw [cons_append, rawBody, hself]
      rfl
    | false =>
      rw [rawBody] at h
      by_cases hquote : c = 0x22
      · rw [if_pos hquote] at h
        cases h
        rw [hquote]
        exact ⟨rfl, rfl⟩
      by_cases hcontrol : c < 0x20
      · rw [if_neg hquote, if_pos hcontrol] at h
        cases h
      rw [if_neg hquote, if_neg hcontrol] at h
      obtain ⟨⟨body', rest'⟩, hbody, heq⟩ := map_eq_some_iff.mp h
      cases heq
      obtain ⟨hsplit, hself⟩ := ih hbody
      refine ⟨by rw [cons_append, ← hsplit], ?_⟩
      rw [cons_append, rawBody, if_neg hquote, if_neg hcontrol, hself]
      rfl

theorem parseString_append {text : Bytes} (h : IsBody body text) (rest : Bytes) :
    parseString (body ++ 0x22 :: rest) = some (text, rest) := by
  have hraw := rawBody_append h.1 rest
  rw [append_assoc] at hraw
  obtain ⟨bytes, hbytes, htext⟩ := map_eq_some_iff.mp h.2
  unfold parseString
  rw [singleton_append] at hraw
  rw [hraw, bind_some, hbytes, map_some, htext]
  rfl

theorem parseString_sound {text : Bytes} (h : parseString s = some (text, rest)) :
    ∃ body, s = body ++ 0x22 :: rest ∧ IsBody body text := by
  unfold parseString at h
  obtain ⟨⟨body, rest'⟩, hraw, hmap⟩ := bind_eq_some_iff.mp h
  obtain ⟨bytes, hbytes, heq⟩ := map_eq_some_iff.mp hmap
  cases heq
  obtain ⟨hsplit, hself⟩ := rawBody_sound hraw
  exact ⟨body, hsplit, hself, by rw [hbytes]; rfl⟩

/-! ### What a body stands for -/

theorem pieces_cons (hc : c ≠ 0x5C) (rest : Bytes) :
    pieces (c :: rest) = (pieces rest).map (.byte c :: ·) := by
  cases rest with
  | nil => exact if_neg hc
  | cons d tail =>
    rw [pieces]
    · intro hnil
      cases hnil
    · intro _ _ _ _ _ heq _
      exact hc heq
    intro _ _ heq _
    exact hc heq

theorem pieces_plain (h : (0x5C : UInt8) ∉ body) : pieces body = some (body.map .byte) := by
  induction body with
  | nil => rfl
  | cons c rest ih =>
    rw [mem_cons, not_or] at h
    rw [pieces_cons (Ne.symm h.1), ih h.2]
    rfl

@[simp] theorem joinPieces_bytes (bytes : Bytes) (rest : List Piece) :
    joinPieces (bytes.map .byte ++ rest) = bytes ++ joinPieces rest := by
  induction bytes with
  | nil => rfl
  | cons c tail ih => rw [map_cons, cons_append, joinPieces, ih, cons_append]

theorem unescape_plain (h : (0x5C : UInt8) ∉ body) : unescape body = some body := by
  have hjoin := joinPieces_bytes body []
  rw [append_nil] at hjoin
  unfold unescape
  rw [pieces_plain h, map_some, hjoin, joinPieces, append_nil]

/-! ### Bodies made of chunks -/

/-- A piece of a body that stands for `bytes`, whatever follows. -/
structure Chunk (q bytes : Bytes) : Prop where
  raw : ∀ rest body r, rawBody false rest = some (body, r) →
    rawBody false (q ++ rest) = some (q ++ body, r)
  pieces : ∃ ps, (∀ rest, pieces (q ++ rest) = (pieces rest).map (ps ++ ·)) ∧
    ∀ more, joinPieces (ps ++ more) = bytes ++ joinPieces more

theorem Chunk.nil : Chunk [] [] where
  raw _ _ _ h := h
  pieces := ⟨[], fun rest => by simp, fun _ => rfl⟩

theorem Chunk.append {q' bytes bytes' : Bytes} (h : Chunk q bytes) (h' : Chunk q' bytes') :
    Chunk (q ++ q') (bytes ++ bytes') := by
  obtain ⟨ps, hpieces, hjoin⟩ := h.pieces
  obtain ⟨ps', hpieces', hjoin'⟩ := h'.pieces
  refine ⟨fun rest body r hraw => ?_, ps ++ ps', fun rest => ?_, fun more => ?_⟩
  · rw [append_assoc, append_assoc]
    exact h.raw _ _ _ (h'.raw _ _ _ hraw)
  · rw [append_assoc, hpieces, hpieces', Option.map_map]
    simp only [Function.comp_def, append_assoc]
  · rw [append_assoc, hjoin, hjoin', append_assoc]

theorem rawBody_plain (hquote : c ≠ 0x22) (hcontrol : ¬ c < 0x20) {r : Bytes}
    (h : rawBody (c = 0x5C) rest = some (body, r)) :
    rawBody false (c :: rest) = some (c :: body, r) := by
  rw [rawBody, if_neg hquote, if_neg hcontrol, h]
  rfl

theorem Chunk.byte (hquote : c ≠ 0x22) (hcontrol : ¬ c < 0x20) (hescape : c ≠ 0x5C) :
    Chunk [c] [c] where
  raw rest body r h := rawBody_plain hquote hcontrol (by rwa [decide_eq_false hescape])
  pieces := ⟨[.byte c], fun rest => pieces_cons hescape rest, fun _ => rfl⟩

theorem Chunk.bytes (h : ∀ c ∈ q, c ≠ 0x22 ∧ ¬ c < 0x20 ∧ c ≠ 0x5C) : Chunk q q := by
  induction q with
  | nil => exact Chunk.nil
  | cons c rest ih =>
    obtain ⟨hquote, hcontrol, hescape⟩ := h c mem_cons_self
    exact (Chunk.byte hquote hcontrol hescape).append
      (ih fun d hd => h d (mem_cons_of_mem c hd))

theorem rawBody_escape (e : UInt8) {r : Bytes} (h : rawBody false rest = some (body, r)) :
    rawBody false (0x5C :: e :: rest) = some (0x5C :: e :: body, r) := by
  refine rawBody_plain (by decide) (by decide) ?_
  show rawBody true (e :: rest) = some (e :: body, r)
  rw [rawBody, h]
  rfl

theorem Chunk.escape {e b : UInt8} (hb : simpleEscape e = some b) : Chunk [0x5C, e] [b] where
  raw rest body r h := rawBody_escape e h
  pieces := by
    refine ⟨[.byte b], fun rest => ?_, fun _ => rfl⟩
    have hunit : e ≠ 0x75 := by
      rintro rfl
      cases hb
    show Json.pieces (0x5C :: e :: rest) = _
    rw [Json.pieces, hb]
    · rfl
    intro _ _ _ _ _ he _
    exact hunit he

theorem Chunk.unit {a b d : UInt8} {u : Nat} (hu : hex4 a b c d = some u)
    (hhigh : isHigh u = false) (h : ∀ x ∈ [a, b, c, d], x ≠ 0x22 ∧ ¬ x < 0x20 ∧ x ≠ 0x5C) :
    Chunk [0x5C, 0x75, a, b, c, d] (String.utf8EncodeChar (unitChar u)) where
  raw rest body r hraw := rawBody_escape 0x75 ((Chunk.bytes h).raw rest body r hraw)
  pieces := by
    refine ⟨[.unit u], fun rest => ?_, fun more => ?_⟩
    · show Json.pieces (0x5C :: 0x75 :: a :: b :: c :: d :: rest) = _
      rw [Json.pieces, hu]
      rfl
    show joinPieces (.unit u :: more) = _
    cases more with
    | nil => simp [joinPieces]
    | cons p more =>
      cases p with
      | byte x => simp [joinPieces]
      | unit v =>
        rw [joinPieces, hhigh, Bool.false_and, if_neg (by decide)]

theorem Chunk.isBody {bytes : Bytes} (h : Chunk q bytes) (hvalid : Utf8.sanitize bytes = bytes) :
    IsBody q bytes := by
  have hraw := h.raw [0x22] [] [] rfl
  rw [append_nil] at hraw
  refine ⟨hraw, ?_⟩
  obtain ⟨ps, hpieces, hjoin⟩ := h.pieces
  have hall := hpieces []
  have hbytes := hjoin []
  simp only [append_nil, joinPieces, Json.pieces, map_some] at hall hbytes
  unfold unescape
  rw [hall, map_some, hbytes, map_some, hvalid]

end DenseCore.Lib.Json
