/-
Values whose numbers are converted and whose objects are maps.

To read the numbers in two steps is to read them in one (`Value.read_map`), as what
was read once has sorted keys, so reading again keeps the order
(`Value.Ordered.read_eq`).  Strings are carried along unchanged.
-/
import DenseCore.Lib.JsonGrammar

namespace DenseCore.Lib.Json

open List

variable {N M : Type}

/-! ### Converting numbers -/

mutual

/-- The value with every number converted. -/
def Value.map (f : N → M) : Value N → Value M
  | .null => .null
  | .bool b => .bool b
  | .number n => .number (f n)
  | .string s => .string s
  | .array items => .array (mapItems f items)
  | .object members => .object (mapMembers f members)

/-- The items, with their numbers changed. -/
def mapItems (f : N → M) : List (Value N) → List (Value M)
  | [] => []
  | v :: rest => v.map f :: mapItems f rest

/-- The members, with their numbers changed. -/
def mapMembers (f : N → M) : List (Bytes × Value N) → List (Bytes × Value M)
  | [] => []
  | (key, v) :: rest => (key, v.map f) :: mapMembers f rest

end

theorem mapMembers_insertKey (f : N → M) (key : Bytes) (v : Value N)
    (map : List (Bytes × Value N)) :
    mapMembers f (insertKey key v map) = insertKey key (v.map f) (mapMembers f map) := by
  induction map with
  | nil => rfl
  | cons entry rest ih =>
    obtain ⟨k, w⟩ := entry
    simp only [insertKey, mapMembers]
    split
    · rfl
    split
    · rfl
    · rw [mapMembers, ih]

@[simp] theorem mapMembers_keys (f : N → M) (members : List (Bytes × Value N)) :
    (mapMembers f members).map Prod.fst = members.map Prod.fst := by
  induction members with
  | nil => rfl
  | cons entry rest ih =>
    obtain ⟨k, w⟩ := entry
    rw [mapMembers, map_cons, map_cons, ih]

mutual

/-- **Reading in two steps**: the numbers are read, and then converted. -/
theorem Value.read_map {K : Type} (number : N → Option M) (f : M → K) :
    ∀ v : Value N, v.read (fun n => (number n).map f) = (v.read number).map (Value.map f)
  | .null => rfl
  | .bool _ => rfl
  | .number n => by
      simp only [Value.read, Option.map_map]
      rfl
  | .string _ => rfl
  | .array items => by
      simp only [Value.read, readItems_map number f items, Option.map_map]
      rfl
  | .object members => by
      have h := readMembers_map number f members []
      simp only [mapMembers] at h
      simp only [Value.read, h, Option.map_map]
      rfl

theorem readItems_map {K : Type} (number : N → Option M) (f : M → K) : ∀ items : List (Value N),
      readItems (fun n => (number n).map f) items = (readItems number items).map (mapItems f)
  | [] => rfl
  | v :: rest => by
      simp only [readItems, Value.read_map number f v, readItems_map number f rest]
      cases v.read number with
      | none => rfl
      | some w => cases readItems number rest <;> rfl

theorem readMembers_map {K : Type} (number : N → Option M) (f : M → K) :
    ∀ (members : List (Bytes × Value N)) (map : List (Bytes × Value M)),
      readMembers (fun n => (number n).map f) members (mapMembers f map) =
        (readMembers number members map).map (mapMembers f)
  | [], _ => rfl
  | (key, v) :: rest, map => by
      simp only [readMembers, Value.read_map number f v]
      cases v.read number with
      | none => rfl
      | some w =>
        simp only [Option.map_some, Option.bind_some]
        rw [← mapMembers_insertKey, readMembers_map number f rest]

end

mutual

theorem Value.map_read {K : Type} (f : N → M) (number : M → Option K) :
    ∀ v : Value N, (v.map f).read number = v.read fun n => number (f n)
  | .null => rfl
  | .bool _ => rfl
  | .number _ => rfl
  | .string _ => rfl
  | .array items => by
      rw [Value.map, Value.read, mapItems_read f number items]
      rfl
  | .object members => by
      rw [Value.map, Value.read, mapMembers_read f number members]
      rfl

theorem mapItems_read {K : Type} (f : N → M) (number : M → Option K) : ∀ items : List (Value N),
      readItems number (mapItems f items) = readItems (fun n => number (f n)) items
  | [] => rfl
  | v :: rest => by
      rw [mapItems, readItems, Value.map_read f number v, mapItems_read f number rest]
      rfl

theorem mapMembers_read {K : Type} (f : N → M) (number : M → Option K) :
    ∀ (members : List (Bytes × Value N)) (map : List (Bytes × Value K)),
      readMembers number (mapMembers f members) map =
        readMembers (fun n => number (f n)) members map
  | [], _ => rfl
  | (key, v) :: rest, map => by
      simp only [mapMembers, readMembers, Value.map_read f number v, mapMembers_read f number rest]

end

/-! ### Sorted keys -/

/-- Every key is before the ones behind it. -/
def SortedKeys {α : Type} (map : List (Bytes × α)) : Prop := map.Pairwise fun a b => a.1 < b.1

variable {α : Type} {key k : Bytes} {v : α} {map : List (Bytes × α)}

theorem mem_keys_insertKey
    (h : k ∈ (insertKey key v map).map Prod.fst) : k = key ∨ k ∈ map.map Prod.fst := by
  induction map with
  | nil => exact Or.inl (mem_singleton.mp h)
  | cons entry rest ih =>
    obtain ⟨k', w⟩ := entry
    rw [insertKey] at h
    split at h
    · rename_i heq
      rw [map_cons, mem_cons] at h ⊢
      tauto
    split at h
    · rw [map_cons, mem_cons] at h
      exact h
    rw [map_cons, mem_cons] at h ⊢
    tauto

theorem mem_insertKey_keys
    (h : k = key ∨ k ∈ map.map Prod.fst) : k ∈ (insertKey key v map).map Prod.fst := by
  induction map with
  | nil => exact mem_singleton.mpr (h.resolve_right not_mem_nil)
  | cons entry rest ih =>
    obtain ⟨k', w⟩ := entry
    rw [map_cons, mem_cons] at h
    rw [insertKey]
    split
    · rename_i heq
      rw [map_cons, mem_cons]
      simp only at h heq ⊢
      rw [heq] at h ⊢
      tauto
    split
    · rw [map_cons, map_cons, mem_cons, mem_cons]
      tauto
    rw [map_cons, mem_cons]
    tauto

theorem mem_keys_readMembers {number : N → Option M} {k : Bytes} :
    ∀ {members : List (Bytes × Value N)} {map ws : List (Bytes × Value M)},
      readMembers number members map = some ws →
        k ∈ map.map Prod.fst ∨ k ∈ members.map Prod.fst → k ∈ ws.map Prod.fst
  | [], _, _, h, hk => by
      cases h
      exact hk.resolve_right not_mem_nil
  | (key, v) :: rest, map, ws, h, hk => by
      obtain ⟨w, -, hrest⟩ := Option.bind_eq_some_iff.mp h
      refine mem_keys_readMembers hrest ?_
      rw [map_cons, mem_cons] at hk
      rcases hk with hk | hk | hk
      · exact Or.inl (mem_insertKey_keys (Or.inr hk))
      · exact Or.inl (mem_insertKey_keys (Or.inl hk))
      · exact Or.inr hk

theorem SortedKeys.insertKey (h : SortedKeys map) (key : Bytes)
    (v : α) : SortedKeys (insertKey key v map) := by
  induction map with
  | nil => exact pairwise_singleton _ _
  | cons entry rest ih =>
    obtain ⟨k, w⟩ := entry
    obtain ⟨hfirst, hrest⟩ := pairwise_cons.mp h
    rw [Json.insertKey]
    split
    · rename_i heq
      subst heq
      exact pairwise_cons.mpr ⟨hfirst, hrest⟩
    rename_i hne
    split
    · rename_i hlt
      refine pairwise_cons.mpr ⟨fun b hb => ?_, h⟩
      rcases mem_cons.mp hb with rfl | hb
      · exact hlt
      · exact List.lt_trans hlt (hfirst b hb)
    rename_i hge
    have hlt : k < key := List.not_le.mp fun hle => hne (List.le_antisymm hle hge)
    refine pairwise_cons.mpr ⟨fun b hb => ?_, ih hrest⟩
    rcases mem_keys_insertKey (mem_map_of_mem hb) with hkey | hmem
    · exact hkey ▸ hlt
    obtain ⟨b', hb', hkey⟩ := mem_map.mp hmem
    exact hkey ▸ hfirst b' hb'

theorem insertKey_last (v : α)
    (h : ∀ entry ∈ map, entry.1 < key) : insertKey key v map = map ++ [(key, v)] := by
  induction map with
  | nil => rfl
  | cons entry rest ih =>
    obtain ⟨k, w⟩ := entry
    have hlt := h (k, w) mem_cons_self
    have hne : key ≠ k := by
      rintro rfl
      exact List.lt_irrefl _ hlt
    rw [insertKey, if_neg hne, if_neg (List.lt_asymm hlt),
      ih fun e he => h e (mem_cons_of_mem _ he)]
    rfl

mutual

/-- The keys of all objects are sorted. -/
def Value.Ordered : Value N → Prop
  | .array items => OrderedItems items
  | .object members => SortedKeys members ∧ OrderedMembers members
  | _ => True

/-- The keys of all objects inside the items are sorted. -/
def OrderedItems : List (Value N) → Prop
  | [] => True
  | v :: rest => v.Ordered ∧ OrderedItems rest

/-- The keys of all objects inside the members are sorted. -/
def OrderedMembers : List (Bytes × Value N) → Prop
  | [] => True
  | (_, v) :: rest => v.Ordered ∧ OrderedMembers rest

end

variable {map : List (Bytes × Value N)} {v : Value N}

theorem OrderedMembers.insertKey (h : OrderedMembers map)
    (key : Bytes) (hv : v.Ordered) : OrderedMembers (insertKey key v map) := by
  induction map with
  | nil => exact ⟨hv, trivial⟩
  | cons entry rest ih =>
    obtain ⟨k, w⟩ := entry
    rw [Json.insertKey]
    split
    · exact ⟨hv, h.2⟩
    split
    · exact ⟨hv, h⟩
    · exact ⟨h.1, ih h.2⟩

mutual

theorem Value.ordered_of_read {number : N → Option M} :
    ∀ (v : Value N) {w : Value M}, v.read number = some w → w.Ordered
  | .null, _, h => by cases h; exact trivial
  | .bool _, _, h => by cases h; exact trivial
  | .number n, _, h => by
      obtain ⟨m, -, rfl⟩ := Option.map_eq_some_iff.mp h
      exact trivial
  | .string _, _, h => by cases h; exact trivial
  | .array items, _, h => by
      obtain ⟨ws, hws, rfl⟩ := Option.map_eq_some_iff.mp h
      exact orderedItems_of_read items hws
  | .object members, _, h => by
      obtain ⟨ws, hws, rfl⟩ := Option.map_eq_some_iff.mp h
      exact orderedMembers_of_read members List.Pairwise.nil trivial hws

theorem orderedItems_of_read {number : N → Option M} :
    ∀ (items : List (Value N)) {ws : List (Value M)}, readItems number items = some ws →
      OrderedItems ws
  | [], _, h => by cases h; exact trivial
  | v :: rest, _, h => by
      obtain ⟨w, hw, hrest⟩ := Option.bind_eq_some_iff.mp h
      obtain ⟨ws, hws, rfl⟩ := Option.map_eq_some_iff.mp hrest
      exact ⟨Value.ordered_of_read v hw, orderedItems_of_read rest hws⟩

theorem orderedMembers_of_read {number : N → Option M} :
    ∀ (members : List (Bytes × Value N)) {map ws : List (Bytes × Value M)}, SortedKeys map →
      OrderedMembers map → readMembers number members map = some ws →
      SortedKeys ws ∧ OrderedMembers ws
  | [], _, _, hsorted, hmap, h => by cases h; exact ⟨hsorted, hmap⟩
  | (key, v) :: rest, _, _, hsorted, hmap, h => by
      obtain ⟨w, hw, hrest⟩ := Option.bind_eq_some_iff.mp h
      exact orderedMembers_of_read rest (hsorted.insertKey key w)
        (hmap.insertKey key (Value.ordered_of_read v hw)) hrest

end

mutual

/-- **An ordered value is read as it stands**, its numbers converted. -/
theorem Value.Ordered.read_eq (f : N → M) :
    ∀ {v : Value N}, v.Ordered → v.read (fun n => some (f n)) = some (v.map f)
  | .null, _ => rfl
  | .bool _, _ => rfl
  | .number _, _ => rfl
  | .string _, _ => rfl
  | .array items, h => by
      rw [Value.read, OrderedItems.read_eq f h]
      rfl
  | .object members, h => by
      have hread : readMembers (fun n => some (f n)) members [] =
          some ([] ++ mapMembers f members) := OrderedMembers.read_eq f h.2 h.1 (by simp)
      rw [Value.read, hread]
      rfl

theorem OrderedItems.read_eq (f : N → M) : ∀ {items : List (Value N)}, OrderedItems items →
      readItems (fun n => some (f n)) items = some (mapItems f items)
  | [], _ => rfl
  | v :: rest, h => by
      rw [readItems, Value.Ordered.read_eq f h.1, OrderedItems.read_eq f h.2]
      rfl

theorem OrderedMembers.read_eq (f : N → M) :
    ∀ {members : List (Bytes × Value N)} {map : List (Bytes × Value M)}, OrderedMembers members →
      SortedKeys members → (∀ a ∈ map, ∀ b ∈ members, a.1 < b.1) →
      readMembers (fun n => some (f n)) members map = some (map ++ mapMembers f members)
  | [], map, _, _, _ => by
      rw [readMembers, mapMembers, append_nil]
  | (key, v) :: rest, map, h, hsorted, hlt => by
      obtain ⟨hfirst, hrest⟩ := pairwise_cons.mp hsorted
      have hlast := insertKey_last (v.map f) fun a ha => hlt a ha (key, v) mem_cons_self
      have hbehind : ∀ a ∈ map ++ [(key, v.map f)], ∀ b ∈ rest, a.1 < b.1 := by
        intro a ha b hb
        rcases mem_append.mp ha with ha | ha
        · exact hlt a ha b (mem_cons_of_mem _ hb)
        rw [mem_singleton.mp ha]
        exact hfirst b hb
      rw [readMembers, Value.Ordered.read_eq f h.1, Option.bind_some, hlast,
        OrderedMembers.read_eq f h.2 hrest hbehind, mapMembers, append_assoc]
      rfl

end

/-! ### Valid strings -/

mutual

/-- Strings and keys are valid UTF-8. -/
def Value.Valid : Value N → Prop
  | .string s => Utf8.sanitize s = s
  | .array items => ValidItems items
  | .object members => ValidMembers members
  | _ => True

/-- The items are valid. -/
def ValidItems : List (Value N) → Prop
  | [] => True
  | v :: rest => v.Valid ∧ ValidItems rest

/-- The members are valid, their keys too. -/
def ValidMembers : List (Bytes × Value N) → Prop
  | [] => True
  | (key, v) :: rest => Utf8.sanitize key = key ∧ v.Valid ∧ ValidMembers rest

end

theorem ValidMembers.insertKey (h : ValidMembers map) (hkey : Utf8.sanitize key = key)
    (hv : v.Valid) :
    ValidMembers (insertKey key v map) := by
  induction map with
  | nil => exact ⟨hkey, hv, trivial⟩
  | cons entry rest ih =>
    obtain ⟨k, w⟩ := entry
    rw [Json.insertKey]
    split
    · exact ⟨hkey, hv, h.2.2⟩
    split
    · exact ⟨hkey, hv, h⟩
    · exact ⟨h.1, h.2.1, ih h.2.2⟩

mutual

theorem Value.Valid.read {number : N → Option M} :
    ∀ {v : Value N} {w : Value M}, v.Valid → v.read number = some w → w.Valid
  | .null, _, _, h => by cases h; exact trivial
  | .bool _, _, _, h => by cases h; exact trivial
  | .number n, _, _, h => by
      obtain ⟨m, -, rfl⟩ := Option.map_eq_some_iff.mp h
      exact trivial
  | .string s, _, hv, h => by cases h; exact hv
  | .array items, _, hv, h => by
      obtain ⟨ws, hws, rfl⟩ := Option.map_eq_some_iff.mp h
      exact ValidItems.read (show ValidItems items from hv) hws
  | .object members, _, hv, h => by
      obtain ⟨ws, hws, rfl⟩ := Option.map_eq_some_iff.mp h
      exact ValidMembers.read (show ValidMembers members from hv) (show ValidMembers [] from trivial) hws

theorem ValidItems.read {number : N → Option M} :
    ∀ {items : List (Value N)} {ws : List (Value M)}, ValidItems items →
      readItems number items = some ws → ValidItems ws
  | [], _, _, h => by cases h; exact trivial
  | v :: rest, _, hv, h => by
      obtain ⟨w, hw, hrest⟩ := Option.bind_eq_some_iff.mp h
      obtain ⟨ws, hws, rfl⟩ := Option.map_eq_some_iff.mp hrest
      exact ⟨Value.Valid.read hv.1 hw, ValidItems.read hv.2 hws⟩

theorem ValidMembers.read {number : N → Option M} :
    ∀ {members : List (Bytes × Value N)} {map ws : List (Bytes × Value M)}, ValidMembers members →
      ValidMembers map → readMembers number members map = some ws → ValidMembers ws
  | [], _, _, _, hmap, h => by cases h; exact hmap
  | (key, v) :: rest, _, _, hv, hmap, h => by
      obtain ⟨w, hw, hrest⟩ := Option.bind_eq_some_iff.mp h
      exact ValidMembers.read hv.2.2 (hmap.insertKey hv.1 (Value.Valid.read hv.2.1 hw)) hrest

end

theorem IsBody.valid {body text : Bytes} (h : IsBody body text) : Utf8.sanitize text = text := by
  obtain ⟨bytes, -, rfl⟩ := Option.map_eq_some_iff.mp h.2
  exact Utf8.sanitize_sanitize bytes

/-- What a part stands for has valid strings. -/
def Part.Valid : Part → Prop
  | .value v => v.Valid
  | .members ms => ValidMembers ms
  | .items vs => ValidItems vs

/-- **What is read from a text** has valid strings. -/
theorem Reads.valid {p : Part} {t : Bytes} (h : Reads p t) : p.Valid := by
  induction h with
  | nullWord => exact trivial
  | trueWord => exact trivial
  | falseWord => exact trivial
  | number h => exact trivial
  | string h => exact h.valid
  | emptyObject hw => exact trivial
  | object hw h ih => exact ih
  | emptyArray hw => exact trivial
  | array hw h ih => exact ih
  | member hkey h₁ h₂ hv h₃ ih => exact ⟨hkey.valid, ih, trivial⟩
  | moreMembers hkey h₁ h₂ hv h₃ h₄ hr ih ihr => exact ⟨hkey.valid, ih, ihr⟩
  | item hv hw ih => exact ⟨ih, trivial⟩
  | moreItems hv h₁ h₂ hr ih ihr => exact ⟨ih, ihr⟩

end DenseCore.Lib.Json
