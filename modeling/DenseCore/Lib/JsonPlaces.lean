/-
Where a beginning of a JSON text stands.

A text is read byte by byte, with a stack of the objects and arrays that are open and a
place in the innermost one.  Numbers, literals and strings are collected and checked when
they end.  `Remains` is the language of what may follow a place: one byte leads from the
remains of a place to those of the next (`Remains.back`), so that a text read to the end
of its object is an object text (`isObjectText_of_place`).
-/
import DenseCore.Lib.JsonText

namespace DenseCore.Lib.Json

open List

/-! ### Places -/

/-- What is open. -/
inductive Frame where
  | object
  | array
deriving DecidableEq, Repr

/-- The symbol that opens a frame. -/
def Frame.opening : Frame → UInt8
  | .object => 0x7B
  | .array => 0x5B

/-- The symbol that closes a frame. -/
def Frame.closing : Frame → UInt8
  | .object => 0x7D
  | .array => 0x5D

/-- What the grammar has inside a frame. -/
def Frame.contents : Frame → Kind
  | .object => .members
  | .array => .elements

/-- Where a prefix of a text ends. -/
inductive Place where
  /-- Nothing has been read but white space. -/
  | start
  /-- Behind an opening brace or bracket. -/
  | opened
  /-- Behind a comma of an object. -/
  | key
  | colon
  | value
  | string (isKey : Bool) (body : Bytes)
  | number (text : Bytes)
  | word (text : Bytes)
  /-- Behind a value. -/
  | after

def isBlank (c : UInt8) : Bool := c = 0x20 || c = 0x09 || c = 0x0A || c = 0x0D

/-- A byte that may stand in a number. -/
def isNumberByte (c : UInt8) : Bool :=
  (0x30 ≤ c && c ≤ 0x39) || c = 0x2E || c = 0x2D || c = 0x65 || c = 0x45 || c = 0x2B

/-- The bytes with which a number begins. -/
def beginsNumber (c : UInt8) : Bool := (0x30 ≤ c && c ≤ 0x39) || c = 0x2D

def isLetter (c : UInt8) : Bool := 0x61 ≤ c && c ≤ 0x7A

/-- The bytes with which a literal begins. -/
def beginsWord (c : UInt8) : Bool := c = 0x74 || c = 0x66 || c = 0x6E

/-- One of the three words of JSON. -/
def IsWord (s : Bytes) : Prop := s = literal "true" ∨ s = literal "false" ∨ s = literal "null"

/-- The body ends in an escape that the next byte completes. -/
def escapeOpen (body : Bytes) : Bool := body.foldl (fun e c => if c = 0x5C then !e else false) false

variable (c : UInt8) (st : List Frame)

/-- A closing symbol: it must be that of the innermost frame. -/
def closeFrame (f : Frame) : Option (Place × List Frame) :=
  match st with
  | g :: outer => if g = f then some (.after, outer) else none
  | [] => none

/-- Where a key is due: white space, or its quote. -/
def readKey (here : Place) : Option (Place × List Frame) :=
  if isBlank c then some (here, st)
  else if c = 0x22 then some (.string true [], st)
  else none

/-- Where a value is due: white space, or what begins one. -/
def readValue (here : Place) : Option (Place × List Frame) :=
  if isBlank c then some (here, st)
  else if c = 0x22 then some (.string false [], st)
  else if c = 0x7B then some (.opened, .object :: st)
  else if c = 0x5B then some (.opened, .array :: st)
  else if beginsNumber c then some (.number [c], st)
  else if beginsWord c then some (.word [c], st)
  else none

/-- Behind a comma a key or a value is due. -/
def readComma : Option (Place × List Frame) :=
  match st with
  | .object :: _ => some (.key, st)
  | .array :: _ => some (.value, st)
  | [] => none

/-- Behind a value: white space, a comma, or the end of the frame. -/
def readAfter : Option (Place × List Frame) :=
  if isBlank c then some (.after, st)
  else if c = 0x2C then readComma st
  else if c = 0x7D then closeFrame st .object
  else if c = 0x5D then closeFrame st .array
  else none

open Classical in
/-- One byte, where it has a place in a text. -/
noncomputable def advancePlace : Place → Option (Place × List Frame)
  | .start =>
    if isBlank c then some (.start, st)
    else if c = 0x7B then some (.opened, [.object])
    else none
  | .opened =>
    match st with
    | .object :: outer => if c = 0x7D then some (.after, outer) else readKey c st .opened
    | .array :: outer => if c = 0x5D then some (.after, outer) else readValue c st .opened
    | [] => none
  | .key => if st.head? = some .object then readKey c st .key else none
  | .colon =>
    if isBlank c then some (.colon, st)
    else if c = 0x3A then some (.value, st)
    else none
  | .value => readValue c st .value
  | .string isKey body =>
    if c = 0x22 ∧ escapeOpen body = false then
      if StringBody body then some (if isKey then .colon else .after, st) else none
    else some (.string isKey (body ++ [c]), st)
  | .number text =>
    if isNumberByte c then some (.number (text ++ [c]), st)
    else if IsNumber text then readAfter c st
    else none
  | .word text =>
    if isLetter c then some (.word (text ++ [c]), st)
    else if IsWord text then readAfter c st
    else none
  | .after => readAfter c st

/-- The place behind a text. -/
noncomputable def place (text : Bytes) : Option (Place × List Frame) :=
  text.foldl (fun at_ c => at_.bind fun p => advancePlace c p.2 p.1) (some (.start, []))

/-! ### What may follow -/

/-- What ends the innermost of the open frames: white space, perhaps more of its
contents, and its closing byte. -/
def Rest : List Frame → Bytes → Prop
  | [], r => IsWs r
  | f :: outer, r => ∃ w m r', IsWs w ∧ (m = [] ∨ ∃ s, Derives f.contents s ∧ m = 0x2C :: s) ∧
      Rest outer r' ∧ r = w ++ (m ++ f.closing :: r')

/-- The contents of the innermost frame, from their beginning, and what ends it. -/
def Contents (ok : Frame → Bytes → Prop) : List Frame → Bytes → Prop
  | [], _ => False
  | f :: outer, r => ∃ s r', ok f s ∧ Rest outer r' ∧ r = s ++ f.closing :: r'

/-- A colon and a value. -/
def Colon (st : List Frame) (r : Bytes) : Prop :=
  ∃ w₁ w₂ v r', IsWs w₁ ∧ IsWs w₂ ∧ Derives .value v ∧ Rest st r' ∧
    r = w₁ ++ 0x3A :: (w₂ ++ (v ++ r'))

/-- What completes the text, read from a place on. -/
def Remains (st : List Frame) : Place → Bytes → Prop
  | .start, r => IsObjectText r
  | .opened, r => Contents (fun f s => IsWs s ∨ Derives f.contents s) st r
  | .key, r => Contents (fun f s => f = .object ∧ Derives f.contents s) st r
  | .colon, r => Colon st r
  | .value, r => ∃ w v r', IsWs w ∧ Derives .value v ∧ Rest st r' ∧ r = w ++ (v ++ r')
  | .string isKey body, r => ∃ b r', StringBody (body ++ b) ∧
      (if isKey then Colon st r' else Rest st r') ∧ r = b ++ 0x22 :: r'
  | .number text, r => ∃ b r', IsNumber (text ++ b) ∧ Rest st r' ∧ r = b ++ r'
  | .word text, r => ∃ b r', IsWord (text ++ b) ∧ Rest st r' ∧ r = b ++ r'
  | .after, r => Rest st r

variable {c : UInt8} {st st' outer : List Frame} {p p' : Place} {f : Frame} {k : Kind}
  {s r x b : Bytes}

theorem isWs_cons (hc : isBlank c = true) (hs : IsWs s) : IsWs (c :: s) := by
  intro d hd
  rcases mem_cons.mp hd with rfl | hd
  · simpa [isBlank, or_assoc] using hc
  · exact hs d hd

theorem isWs_nil : IsWs [] := fun _ hd => absurd hd not_mem_nil

/-- Contents may begin with white space. -/
theorem Derives.blank_cons (hc : isBlank c = true) (h : Derives k s) (hk : k ≠ .value) :
    Derives k (c :: s) := by
  induction h with
  | literal _ | number _ | string _ | emptyObject _ | object _ | emptyArray _ | array _ =>
    exact absurd rfl hk
  | member h₁ hkey h₂ h₃ hv h₄ => exact .member (isWs_cons hc h₁) hkey h₂ h₃ hv h₄
  | moreMembers _ ht ih _ => exact .moreMembers (ih hk) ht
  | element h₁ hv h₂ => exact .element (isWs_cons hc h₁) hv h₂
  | moreElements _ ht ih _ => exact .moreElements (ih hk) ht

theorem Frame.contents_ne (f : Frame) : f.contents ≠ .value := by cases f <;> simp [contents]

theorem Rest.blank_cons (hc : isBlank c = true) (h : Rest st r) : Rest st (c :: r) := by
  cases st with
  | nil => exact isWs_cons hc h
  | cons f outer =>
    obtain ⟨w, m, r', hw, hm, hrest, rfl⟩ := h
    exact ⟨c :: w, m, r', isWs_cons hc hw, hm, hrest, rfl⟩

/-- One item and what follows it are contents. -/
theorem Rest.item (hitem : ∀ w, IsWs w → Derives f.contents (x ++ w))
    (h : Rest (f :: outer) r) :
    ∃ s r', Derives f.contents s ∧ Rest outer r' ∧ x ++ r = s ++ f.closing :: r' := by
  obtain ⟨w, m, r', hw, hm, hrest, rfl⟩ := h
  rcases hm with rfl | ⟨t, ht, rfl⟩
  · exact ⟨x ++ w, r', hitem w hw, hrest, by simp⟩
  refine ⟨x ++ w ++ 0x2C :: t, r', ?_, hrest, by simp⟩
  cases f with
  | object => exact .moreMembers (hitem w hw) ht
  | array => exact .moreElements (hitem w hw) ht

theorem Colon.member (hb : StringBody b) (h : Colon (.object :: outer) r) :
    ∃ s r', Derives .members s ∧ Rest outer r' ∧ quoted b ++ r = s ++ 0x7D :: r' := by
  obtain ⟨w₁, w₂, v, r', h₁, h₂, hv, hrest, rfl⟩ := h
  obtain ⟨s, t, hs, ht, heq⟩ := Rest.item (x := quoted b ++ (w₁ ++ 0x3A :: (w₂ ++ v)))
    (fun w hw => by simpa [Frame.contents] using Derives.member isWs_nil hb h₁ h₂ hv hw) hrest
  exact ⟨s, t, hs, ht, by simpa [Frame.closing] using heq⟩

theorem Remains.element (h : Remains (.array :: outer) .value r) :
    ∃ s r', Derives .elements s ∧ Rest outer r' ∧ r = s ++ 0x5D :: r' := by
  obtain ⟨w, v, r', hw, hv, hrest, rfl⟩ := h
  obtain ⟨s, t, hs, ht, heq⟩ := Rest.item (x := w ++ v) (f := .array)
    (fun w' hw' => .element hw hv hw') hrest
  exact ⟨s, t, hs, ht, by simpa [Frame.closing] using heq⟩

/-! ### One byte -/

theorem closeFrame_back (h : closeFrame st f = some (p', st')) (hr : Remains st' p' r) :
    Rest st (f.closing :: r) := by
  unfold closeFrame at h
  split at h
  · split at h
    · rename_i heq
      subst heq
      cases h
      exact ⟨[], [], r, isWs_nil, Or.inl rfl, hr, rfl⟩
    · cases h
  · cases h

theorem readComma_back (h : readComma st = some (p', st')) (hr : Remains st' p' r) :
    Rest st (0x2C :: r) := by
  unfold readComma at h
  split at h
  · cases h
    obtain ⟨s, r', ⟨-, hs⟩, hrest, rfl⟩ := hr
    exact ⟨[], 0x2C :: s, r', isWs_nil, Or.inr ⟨s, hs, rfl⟩, hrest, by simp⟩
  · cases h
    obtain ⟨s, r', hs, hrest, rfl⟩ := hr.element
    exact ⟨[], 0x2C :: s, r', isWs_nil, Or.inr ⟨s, hs, rfl⟩, hrest, by simp [Frame.closing]⟩
  · cases h

theorem readAfter_back (h : readAfter c st = some (p', st')) (hr : Remains st' p' r) :
    Rest st (c :: r) := by
  unfold readAfter at h
  split at h
  · rename_i hc
    cases h
    exact Rest.blank_cons hc hr
  split at h
  · rename_i hc
    exact hc ▸ readComma_back h hr
  split at h
  · rename_i hc
    exact hc ▸ closeFrame_back h hr
  split at h
  · rename_i hc
    exact hc ▸ closeFrame_back h hr
  · cases h

theorem readKey_back {here : Place} (h : readKey c st here = some (p', st'))
    (hr : Remains st' p' r) : (isBlank c = true ∧ p' = here ∧ st' = st) ∨
      ∃ b r', StringBody b ∧ Colon st r' ∧ c :: r = quoted b ++ r' := by
  unfold readKey at h
  split at h
  · rename_i hc
    cases h
    exact Or.inl ⟨hc, rfl, rfl⟩
  split at h
  · rename_i hc
    cases h
    obtain ⟨b, r', hb, hcolon, rfl⟩ := hr
    exact Or.inr ⟨b, r', hb, hcolon, by simp [quoted, hc]⟩
  · cases h

theorem Remains.opened_blank (hc : isBlank c = true) (h : Remains st .opened r) :
    Remains st .opened (c :: r) := by
  cases st with
  | nil => exact h
  | cons f outer =>
    obtain ⟨s, r', hs, hrest, rfl⟩ := h
    exact ⟨c :: s, r', hs.imp (isWs_cons hc) fun hs => hs.blank_cons hc f.contents_ne, hrest, rfl⟩

/-- An object or an array is a value. -/
theorem Contents.value (h : Contents (fun f s => IsWs s ∨ Derives f.contents s) (f :: st) r) :
    ∃ v r', Derives .value v ∧ Rest st r' ∧
      f.opening :: r = v ++ r' := by
  obtain ⟨s, r', hs, hrest, rfl⟩ := h
  cases f with
  | object =>
    refine ⟨0x7B :: s ++ [0x7D], r', ?_, hrest, by simp [Frame.opening, Frame.closing]⟩
    exact hs.elim .emptyObject .object
  | array =>
    refine ⟨0x5B :: s ++ [0x5D], r', ?_, hrest, by simp [Frame.opening, Frame.closing]⟩
    exact hs.elim .emptyArray .array

theorem readValue_back {here : Place} (h : readValue c st here = some (p', st'))
    (hr : Remains st' p' r) : (isBlank c = true ∧ p' = here ∧ st' = st) ∨
      Remains st .value (c :: r) := by
  unfold readValue at h
  split at h
  · rename_i hc
    cases h
    exact Or.inl ⟨hc, rfl, rfl⟩
  right
  suffices hvalue : ∃ v r', Derives .value v ∧ Rest st r' ∧ c :: r = v ++ r' by
    obtain ⟨v, r', hv, hrest, heq⟩ := hvalue
    exact ⟨[], v, r', isWs_nil, hv, hrest, heq⟩
  split at h
  · rename_i hc
    cases h
    obtain ⟨b, r', hb, hrest, rfl⟩ := hr
    exact ⟨quoted b, r', .string hb, hrest, by simp [quoted, hc]⟩
  split at h
  · rename_i hc
    cases h
    exact hc ▸ Contents.value hr
  split at h
  · rename_i hc
    cases h
    exact hc ▸ Contents.value hr
  split at h
  · cases h
    obtain ⟨b, r', hb, hrest, rfl⟩ := hr
    exact ⟨c :: b, r', .number hb, hrest, rfl⟩
  split at h
  · cases h
    obtain ⟨b, r', hb, hrest, rfl⟩ := hr
    exact ⟨c :: b, r', .literal hb, hrest, rfl⟩
  · cases h

/-- **One byte back**: what may follow the next place, may follow this one behind it. -/
theorem Remains.back (h : advancePlace c st p = some (p', st')) (hr : Remains st' p' r) :
    Remains st p (c :: r) := by
  cases p with
  | start =>
    simp only [advancePlace] at h
    split at h
    · rename_i hc
      cases h
      obtain ⟨w₁, s, w₂, h₁, hs, h₂, rfl⟩ := hr
      exact ⟨c :: w₁, s, w₂, isWs_cons hc h₁, hs, h₂, rfl⟩
    split at h
    · rename_i hc
      cases h
      obtain ⟨s, r', hs, hrest, rfl⟩ := hr
      exact ⟨[], 0x7B :: s ++ [0x7D], r', isWs_nil, ⟨s, hs, rfl⟩, hrest,
        by simp [hc, Frame.closing]⟩
    · cases h
  | opened =>
    simp only [advancePlace] at h
    split at h
    · split at h
      · rename_i hc
        cases h
        exact ⟨[], r, Or.inl isWs_nil, hr, by simp [hc, Frame.closing]⟩
      rcases readKey_back h hr with ⟨hc, rfl, rfl⟩ | ⟨b, r', hb, hcolon, heq⟩
      · exact Remains.opened_blank hc hr
      · obtain ⟨s, r', hs, hrest, heq'⟩ := hcolon.member hb
        exact ⟨s, r', Or.inr hs, hrest, heq.trans heq'⟩
    · split at h
      · rename_i hc
        cases h
        exact ⟨[], r, Or.inl isWs_nil, hr, by simp [hc, Frame.closing]⟩
      rcases readValue_back h hr with ⟨hc, rfl, rfl⟩ | hvalue
      · exact Remains.opened_blank hc hr
      · obtain ⟨s, r', hs, hrest, heq⟩ := hvalue.element
        exact ⟨s, r', Or.inr hs, hrest, heq⟩
    · cases h
  | key =>
    simp only [advancePlace] at h
    split at h
    · rename_i htop
      cases st with
      | nil => cases htop
      | cons f outer =>
        obtain rfl : f = .object := by simpa using htop
        rcases readKey_back h hr with ⟨hc, rfl, rfl⟩ | ⟨b, r', hb, hcolon, heq⟩
        · obtain ⟨s, r', ⟨-, hs⟩, hrest, rfl⟩ := hr
          exact ⟨c :: s, r', ⟨rfl, hs.blank_cons hc (by simp [Frame.contents])⟩, hrest, rfl⟩
        · obtain ⟨s, r', hs, hrest, heq'⟩ := hcolon.member hb
          exact ⟨s, r', ⟨rfl, hs⟩, hrest, heq.trans heq'⟩
    · cases h
  | colon =>
    simp only [advancePlace] at h
    split at h
    · rename_i hc
      cases h
      obtain ⟨w₁, w₂, v, r', h₁, h₂, hv, hrest, rfl⟩ := hr
      exact ⟨c :: w₁, w₂, v, r', isWs_cons hc h₁, h₂, hv, hrest, rfl⟩
    split at h
    · rename_i hc
      cases h
      obtain ⟨w, v, r', hw, hv, hrest, rfl⟩ := hr
      exact ⟨[], w, v, r', isWs_nil, hw, hv, hrest, by simp [hc]⟩
    · cases h
  | value =>
    rcases readValue_back h hr with ⟨hc, rfl, rfl⟩ | hvalue
    · obtain ⟨w, v, r', hw, hv, hrest, rfl⟩ := hr
      exact ⟨c :: w, v, r', isWs_cons hc hw, hv, hrest, rfl⟩
    · exact hvalue
  | string isKey body =>
    simp only [advancePlace] at h
    split at h
    · rename_i hc
      split at h
      · rename_i hbody
        cases h
        refine ⟨[], r, by rwa [append_nil], ?_, by simp [hc.1]⟩
        cases isKey <;> exact hr
      · cases h
    · cases h
      obtain ⟨b, r', hb, hrest, rfl⟩ := hr
      exact ⟨c :: b, r', by simpa using hb, hrest, rfl⟩
  | number text | word text =>
    simp only [advancePlace] at h
    split at h
    · cases h
      obtain ⟨b, r', hb, hrest, rfl⟩ := hr
      exact ⟨c :: b, r', by simpa using hb, hrest, rfl⟩
    split at h
    · rename_i hwhole
      exact ⟨[], c :: r, by rwa [append_nil], readAfter_back h hr, rfl⟩
    · cases h
  | after => exact readAfter_back h hr

/-! ### A whole text -/

variable {text : Bytes}

@[simp] theorem place_nil : place [] = some (.start, []) := rfl

@[simp] theorem place_concat (text : Bytes) (c : UInt8) :
    place (text ++ [c]) = (place text).bind fun p => advancePlace c p.2 p.1 := foldl_append

theorem place_step (h : place text = some (p, st)) (hstep : advancePlace c st p = some (p', st')) :
    place (text ++ [c]) = some (p', st') := by
  rw [place_concat, h]
  exact hstep

/-- **The text so far with what may follow** is an object text. -/
theorem isObjectText_of_remains (h : place text = some (p, st)) (hr : Remains st p r) :
    IsObjectText (text ++ r) := by
  induction text using reverseRecOn generalizing p st r with
  | nil =>
    cases h
    exact hr
  | append_singleton text c ih =>
    rw [place_concat] at h
    obtain ⟨⟨q, outer⟩, hq, hstep⟩ := Option.bind_eq_some_iff.mp h
    rw [append_assoc]
    exact ih hq (Remains.back hstep hr)

/-- **At the end of the object** the text is complete. -/
theorem isObjectText_of_place (h : place text = some (.after, [])) : IsObjectText text := by
  have hfull := isObjectText_of_remains h (r := []) isWs_nil
  rwa [append_nil] at hfull

end DenseCore.Lib.Json
