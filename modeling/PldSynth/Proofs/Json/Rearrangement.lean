import Mathlib.Data.List.Forall2
import Mathlib.Data.List.Nodup
import Mathlib.Logic.Relation
import PldSynth.Json.Record

/-!
# Rearranged JSON

A JSON value can be rearranged and still say the same. The members of an object may come in any order, and
a record may have members that nobody asks for. Which objects are records depends on how the value is going
to be read: that is its shape (`Json.Shape`). `Json.Change` is one change, at any depth, and
`Json.Rearranged` is any number of them.

A way of reading respects a shape if no change makes a difference to it (`Json.Respects`). This goes through
lists, dictionaries and records: they respect their shape if what they read their parts with does.
-/

namespace PldSynth

open List

/-! ## Look-ups in any order -/

theorem lookup_eq_some_iff_mem {α : Type} {l : List (String × α)} (hnd : (l.map Prod.fst).Nodup)
    {k : String} {v : α} : l.lookup k = some v ↔ (k, v) ∈ l := by
  induction l with
  | nil => simp
  | cons x l ih =>
    obtain ⟨hx, hl⟩ := nodup_cons.mp hnd
    rw [Dict.lookup_cons_eq, mem_cons, Prod.ext_iff]
    by_cases hk : k = x.1
    · have hnot : (k, v) ∉ l := fun hm => hx (hk ▸ mem_map_of_mem hm)
      simp [hk, eq_comm, hk ▸ hnot]
    · simp [hk, ih hl]

theorem lookup_eq_of_perm {α : Type} {l l' : List (String × α)} (h : l.Perm l')
    (hnd : (l.map Prod.fst).Nodup) (k : String) : l.lookup k = l'.lookup k := by
  have hnd' : (l'.map Prod.fst).Nodup := (h.map Prod.fst).nodup_iff.mp hnd
  ext v
  rw [lookup_eq_some_iff_mem hnd, lookup_eq_some_iff_mem hnd', h.mem_iff]

namespace Dict

variable {α : Type}

theorem get?_foldl_insert (l : List (String × α)) (d : Dict α) (k : String) :
    (l.foldl (fun d e => d.insert e.1 e.2) d).get? k = (l.reverse.lookup k).or (d.get? k) := by
  induction l generalizing d with
  | nil => rfl
  | cons x l ih =>
    rw [foldl_cons, ih, get?_insert, reverse_cons, lookup_append, Option.or_assoc,
      lookup_cons_eq]
    split <;> rfl

/-- Entries with different names may come in any order. -/
theorem ofList_eq_of_perm {l l' : List (String × α)} (h : l.Perm l')
    (hnd : (l.map Prod.fst).Nodup) : ofList l = ofList l' := by
  refine ext_get? fun k => ?_
  have hrev : l.reverse.Perm l'.reverse := (reverse_perm l).trans (h.trans (reverse_perm l').symm)
  have hnd' : (l.reverse.map Prod.fst).Nodup := by
    rwa [map_reverse, nodup_reverse]
  rw [ofList, ofList, get?_foldl_insert, get?_foldl_insert, lookup_eq_of_perm hrev hnd']

end Dict

/-- A loop over a list that may fail, as a test of every item and a loop that cannot fail. -/
theorem mapM_eq_ite {α β : Type} (f : α → Option β) (l : List α) :
    l.mapM f = if l.all fun x => (f x).isSome then some (l.filterMap f) else none := by
  induction l with
  | nil => rfl
  | cons x l ih =>
    rw [mapM_cons, ih, all_cons, filterMap_cons]
    cases f x with
    | none => rfl
    | some y =>
      cases l.all fun x => (f x).isSome <;> rfl

namespace Json

/-! ## Changes -/

/-- How a value is going to be read: as a record with these fields, as a dictionary, or in a way for which
no part of it is a record. -/
inductive Shape
  | plain
  | record (fields : List (String × Shape))
  | dict (item : Shape)

namespace Shape

/-- The shape of a member of an object. -/
def member : Shape → Option String → Shape
  | .record fields, some key => (fields.lookup key).getD .plain
  | .dict item, _ => item
  | _, _ => .plain

/-- The shape of an item of an array. A record can be given as the array of the values of its fields. -/
def item : Shape → Nat → Shape
  | .record fields, i => ((fields[i]?).map Prod.snd).getD .plain
  | _, _ => .plain

end Shape

/-- The second value is the first after one change that is of no concern to a reader who expects this
shape. -/
inductive Change : Shape → Json → Json → Prop
  /-- The members of an object are permuted. No key may be given twice. -/
  | permute {shape : Shape} {ms ms' : List (Option String × Json)}
    (distinct : (ms.filterMap Prod.fst).Nodup) (perm : ms.Perm ms') :
    Change shape (.object ms) (.object ms')
  /-- A record gets a member that it does not know. -/
  | insert {fields : List (String × Shape)} {l r : List (Option String × Json)} {key : String}
    {value : Json} (unknown : key ∉ fields.map Prod.fst) :
    Change (.record fields) (.object (l ++ r)) (.object (l ++ (some key, value) :: r))
  /-- A record loses a member that it does not know. -/
  | delete {fields : List (String × Shape)} {l r : List (Option String × Json)} {key : String}
    {value : Json} (unknown : key ∉ fields.map Prod.fst) :
    Change (.record fields) (.object (l ++ (some key, value) :: r)) (.object (l ++ r))
  /-- The value of a member is changed. -/
  | member {shape : Shape} {l r : List (Option String × Json)} {key : Option String} {v v' : Json}
    (change : Change (shape.member key) v v') :
    Change shape (.object (l ++ (key, v) :: r)) (.object (l ++ (key, v') :: r))
  /-- An item of an array is changed. -/
  | item {shape : Shape} {l r : List Json} {v v' : Json}
    (change : Change (shape.item l.length) v v') :
    Change shape (.array (l ++ v :: r)) (.array (l ++ v' :: r))

/-- The second value is the first after any number of changes that are of no concern to a reader who
expects this shape. -/
def Rearranged (shape : Shape) : Json → Json → Prop :=
  Relation.ReflTransGen (Change shape)

/-- No change that is of no concern for the shape makes a difference to what `read` finds. -/
def Respects {α : Type} (shape : Shape) (read : Json → Option α) : Prop :=
  ∀ ⦃v v' : Json⦄, Change shape v v' → read v = read v'

variable {α : Type} {shape : Shape} {read : Json → Option α} {v v' : Json}

theorem Respects.rearranged (h : Respects shape read) (hr : Rearranged shape v v') : read v = read v' := by
  induction hr with
  | refl => rfl
  | tail _ hstep ih => exact ih.trans (h hstep)

/-! ## Texts, numbers and lists -/

/-- What is not found in objects and arrays does not depend on what they hold. -/
theorem Respects.of_scalar (hobject : ∀ ms, read (.object ms) = none)
    (harray : ∀ items, read (.array items) = none) : Respects shape read := by
  intro v v' h
  cases h <;> simp only [hobject, harray]

theorem respects_text : Respects shape text? :=
  .of_scalar (fun _ => rfl) fun _ => rfl

theorem respects_integerIn (lo hi : Int) : Respects shape (integerIn? lo hi) :=
  .of_scalar (fun _ => rfl) fun _ => rfl

theorem respects_list (h : ∀ i, Respects (shape.item i) read) : Respects shape (list? read) := by
  intro v v' hchange
  cases hchange with
  | permute | insert | delete | member => rfl
  | item change => simp only [list?, mapM_append, mapM_cons, h _ change]

/-! ## Dictionaries -/

/-- The name and the value of a member. -/
def item? (decode : Json → Option α) (m : Option String × Json) : Option (String × α) :=
  m.1.bind fun key => (decode m.2).map (key, ·)

/-- An object, read as a dictionary. -/
theorem dict?_object (decode : Json → Option α) (ms : List (Option String × Json)) :
    dict? decode (.object ms) = (ms.mapM (item? decode)).map Dict.ofList := by
  suffices h : ∀ d : Dict α,
      ms.foldlM (fun d m => do return d.insert (← m.1) (← decode m.2)) d =
        (ms.mapM (item? decode)).map (List.foldl (fun d e => d.insert e.1 e.2) d) from
    h Dict.empty
  induction ms with
  | nil => exact fun _ => rfl
  | cons m ms ih =>
    intro d
    rw [foldlM_cons, mapM_cons]
    obtain ⟨key, value⟩ := m
    cases key with
    | none => rfl
    | some key =>
      cases hv : decode value with
      | none => simp [item?, hv]
      | some x =>
        simp only [item?, hv, Option.bind_eq_bind, Option.bind_some, Option.map_some, Option.pure_def]
        refine (ih (d.insert key x)).trans ?_
        cases ms.mapM (item? decode) <;> rfl

/-- The order of the members does not matter to a dictionary. -/
theorem dict?_eq_of_perm {decode : Json → Option α} {ms ms' : List (Option String × Json)}
    (distinct : (ms.filterMap Prod.fst).Nodup) (perm : ms.Perm ms') :
    dict? decode (.object ms) = dict? decode (.object ms') := by
  rw [dict?_object, dict?_object, mapM_eq_ite, mapM_eq_ite, perm.all_eq]
  split
  · rename_i hall
    rw [← perm.all_eq, all_eq_true] at hall
    -- every member is an entry, under its own key
    have hkeys : (ms.filterMap (item? decode)).map Prod.fst = ms.filterMap Prod.fst := by
      rw [map_filterMap]
      refine filterMap_congr fun m hm => ?_
      have hsome := hall m hm
      obtain ⟨key, value⟩ := m
      cases key with
      | none => rfl
      | some key => cases hv : decode value <;> simp_all [item?]
    rw [Option.map_some, Option.map_some,
      Dict.ofList_eq_of_perm (perm.filterMap (item? decode)) (hkeys ▸ distinct)]
  · rfl

theorem respects_dict (hshape : ∀ fields, shape ≠ .record fields)
    (h : ∀ key, Respects (shape.member key) read) : Respects shape (dict? read) := by
  intro v v' hchange
  cases hchange with
  | permute distinct perm => exact dict?_eq_of_perm distinct perm
  | insert | delete => exact absurd rfl (hshape _)
  | member change =>
    simp only [dict?_object, mapM_append, mapM_cons, item?, h _ change]
  | item => rfl

/-! ## Records -/

/-- The members whose keys are text. -/
def named (ms : List (Option String × Json)) : List (String × Json) :=
  ms.filterMap fun m => m.1.map (·, m.2)

variable {names : List String} {fields : List (String × Shape)} {ms ms' pre post : List (Option String × Json)}

theorem named_append : named (pre ++ post) = named pre ++ named post :=
  filterMap_append

theorem named_cons {key : String} : named ((some key, v) :: ms) = (key, v) :: named ms := rfl

theorem map_fst_named : (named ms).map Prod.fst = ms.filterMap Prod.fst := by
  rw [named, map_filterMap]
  refine filterMap_congr fun m _ => ?_
  cases m.1 <;> rfl

theorem record?_object : record? names (.object ms) = if ms.all (·.1.isSome) then
      if names.any fun f => 1 < (named ms).countP (·.1 = f) then none
      else some (names.map fun f => (named ms).lookup f) else none := by
  have hnamed : namedMembers? ms = if ms.all (·.1.isSome) then some (named ms) else none := by
    rw [namedMembers?, mapM_eq_ite]
    simp only [Option.isSome_map]
    rfl
  rw [record?, hnamed]
  split <;> rfl

theorem record?_eq_of_perm (distinct : (ms.filterMap Prod.fst).Nodup) (perm : ms.Perm ms') :
    record? names (.object ms) = record? names (.object ms') := by
  have hnamed : (named ms).Perm (named ms') := perm.filterMap _
  have hlookup : ∀ f, (named ms).lookup f = (named ms').lookup f :=
    lookup_eq_of_perm hnamed (map_fst_named ▸ distinct)
  simp only [record?_object, perm.all_eq, hnamed.countP_eq, hlookup]

/-- A member that the record does not know makes no difference. -/
theorem record?_unknown {key : String} (unknown : key ∉ names) :
    record? names (.object (pre ++ (some key, v) :: post)) = record? names (.object (pre ++ post)) := by
  have hne : ∀ f ∈ names, key ≠ f := fun f hf h => unknown (h ▸ hf)
  have hcount : (names.any fun f => 1 < (named (pre ++ (some key, v) :: post)).countP (·.1 = f)) =
      names.any fun f => 1 < (named (pre ++ post)).countP (·.1 = f) := by
    rw [Bool.eq_iff_iff, any_eq_true, any_eq_true]
    refine exists_congr fun f => and_congr_right fun hf => ?_
    simp [named_append, named_cons, hne f hf]
  have hlookup : (names.map fun f => (named (pre ++ (some key, v) :: post)).lookup f) =
      names.map fun f => (named (pre ++ post)).lookup f := by
    refine map_congr_left fun f hf => ?_
    rw [named_append, named_append, named_cons, lookup_append, lookup_append,
      Dict.lookup_cons_eq, if_neg (hne f hf).symm]
  have hall : (pre ++ (some key, v) :: post).all (·.1.isSome) = (pre ++ post).all (·.1.isSome) := by
    simp [all_append]
  rw [record?_object, record?_object, hcount, hlookup, hall]

/-- The values of a field before and after a change of the record. -/
def Alike (shape : Shape) (a a' : Option Json) : Prop :=
  a = a' ∨ ∃ v v', a = some v ∧ a' = some v' ∧ Change shape v v'

theorem Alike.orElse_eq {a a' : Option Json} (h : Alike shape a a') (hread : Respects shape read)
    (default : α) : orElse read default a = orElse read default a' := by
  obtain rfl | ⟨v, v', rfl, rfl, hchange⟩ := h
  · rfl
  · exact hread hchange

/-- The fields of a record before and after a change, each of them alike. -/
def AlikeFields (fields : List (String × Shape)) (v v' : Json) : Prop :=
  ∃ pairs : List (Option Json × Option Json),
    record? (fields.map Prod.fst) v = some (pairs.map Prod.fst) ∧
    record? (fields.map Prod.fst) v' = some (pairs.map Prod.snd) ∧
    List.Forall₂ (fun f p => Alike f.2 p.1 p.2) fields pairs

/-- A change in the value of one member leaves all fields of a record alike. -/
theorem alikeFields_member {key : Option String} (hnd : (fields.map Prod.fst).Nodup)
    (change : Change ((Shape.record fields).member key) v v') :
    record? (fields.map Prod.fst) (.object (pre ++ (key, v) :: post)) =
        record? (fields.map Prod.fst) (.object (pre ++ (key, v') :: post)) ∨
      AlikeFields fields (.object (pre ++ (key, v) :: post)) (.object (pre ++ (key, v') :: post)) := by
  cases key with
  | none => exact .inl (by simp [record?_object])
  | some key =>
    have hcount : ∀ f, (named (pre ++ (some key, v') :: post)).countP (·.1 = f) =
        (named (pre ++ (some key, v) :: post)).countP (·.1 = f) := by
      simp [named_append, named_cons, countP_cons]
    -- both objects are refused for the same reasons, which the value has no part in
    by_cases hall : (pre ++ (some key, v) :: post).all (·.1.isSome)
    swap
    · left
      have hall' : ¬ (pre ++ (some key, v') :: post).all (·.1.isSome) := by simpa using hall
      rw [record?_object, record?_object, if_neg hall, if_neg hall']
    have hall' : (pre ++ (some key, v') :: post).all (·.1.isSome) := by simpa using hall
    by_cases hdup : (fields.map Prod.fst).any fun f =>
        1 < (named (pre ++ (some key, v) :: post)).countP (·.1 = f)
    · left
      rw [record?_object, record?_object, if_pos hall, if_pos hall']
      simp only [hcount, hdup, if_true]
    right
    refine ⟨fields.map fun f => ((named (pre ++ (some key, v) :: post)).lookup f.1,
      (named (pre ++ (some key, v') :: post)).lookup f.1), ?_, ?_, ?_⟩
    · rw [record?_object, if_pos hall, if_neg hdup, map_map, map_map]
      rfl
    · rw [record?_object, if_pos hall']
      simp only [hcount]
      rw [if_neg hdup, map_map, map_map]
      rfl
    · rw [forall₂_map_right_iff, forall₂_same]
      intro f hf
      simp only [named_append, named_cons, lookup_append, Dict.lookup_cons_eq]
      by_cases hkey : f.1 = key
      · have hshape : (Shape.record fields).member (some key) = f.2 := by
          rw [Shape.member, (lookup_eq_some_iff_mem hnd).mpr (show (key, f.2) ∈ fields from hkey ▸ hf)]
          rfl
        rw [if_pos hkey, if_pos hkey]
        -- an earlier member of that name hides the change
        cases (named pre).lookup f.1 with
        | none => exact .inr ⟨v, v', rfl, rfl, hshape ▸ change⟩
        | some => exact .inl rfl
      · rw [if_neg hkey, if_neg hkey]
        exact .inl rfl

/-- The same for a record that is written as an array. -/
theorem alikeFields_item {pre post : List Json}
    (change : Change ((Shape.record fields).item pre.length) v v') :
    record? (fields.map Prod.fst) (.array (pre ++ v :: post)) =
        record? (fields.map Prod.fst) (.array (pre ++ v' :: post)) ∨
      AlikeFields fields (.array (pre ++ v :: post)) (.array (pre ++ v' :: post)) := by
  have hlength : (pre ++ v' :: post).length = (pre ++ v :: post).length := by simp
  by_cases hfit : (pre ++ v :: post).length ≤ (fields.map Prod.fst).length
  swap
  · exact .inl (by rw [record?, record?, hlength, if_neg hfit, if_neg hfit])
  right
  refine ⟨(List.range (fields.map Prod.fst).length).map fun i =>
    ((pre ++ v :: post)[i]?, (pre ++ v' :: post)[i]?), ?_, ?_, ?_⟩
  · rw [record?, if_pos hfit, map_map]
    rfl
  · rw [record?, hlength, if_pos hfit, map_map]
    rfl
  · rw [forall₂_iff_get]
    refine ⟨by simp, fun i hi hi' => ?_⟩
    simp only [get_eq_getElem, getElem_map, getElem_range]
    -- only the item at the position of the change differs
    by_cases hpos : i = pre.length
    · subst hpos
      have hshape : (Shape.record fields).item pre.length = fields[pre.length].2 := by
        rw [Shape.item, getElem?_eq_getElem hi]
        rfl
      exact .inr ⟨v, v', by simp, by simp, hshape ▸ change⟩
    · left
      rw [getElem?_append, getElem?_append]
      split
      · rfl
      · have hcons : i - pre.length ≠ 0 := by omega
        rw [getElem?_cons, getElem?_cons, if_neg hcons, if_neg hcons]

/-- A change of a record makes no difference to its fields, or changes one of them. -/
theorem Change.alikeFields (hnd : (fields.map Prod.fst).Nodup) (h : Change (.record fields) v v') :
    record? (fields.map Prod.fst) v = record? (fields.map Prod.fst) v' ∨ AlikeFields fields v v' := by
  cases h with
  | permute distinct perm => exact .inl (record?_eq_of_perm distinct perm)
  | insert unknown => exact .inl (record?_unknown unknown).symm
  | delete unknown => exact .inl (record?_unknown unknown)
  | member change => exact alikeFields_member hnd change
  | item change => exact alikeFields_item change

/-- A record that is built in the same way from fields that are alike. -/
theorem respects_record {build : List (Option Json) → Option α} (hnd : (fields.map Prod.fst).Nodup)
    (hbuild : ∀ pairs, List.Forall₂ (fun f p => Alike f.2 p.1 p.2) fields pairs →
      build (pairs.map Prod.fst) = build (pairs.map Prod.snd)) :
    Respects (.record fields) fun v => (record? (fields.map Prod.fst) v).bind build := by
  intro v v' h
  obtain heq | ⟨pairs, hv, hv', hall⟩ := h.alikeFields hnd
  · exact congrArg (Option.bind · build) heq
  · simp only [hv, hv', Option.bind_some, hbuild pairs hall]

end Json

end PldSynth
