import PldSynth.Files.Host
import PldSynth.Files.PathName
import PldSynth.Proofs.Attempt

/-!
# What writing a file changes

A path is followed through directories only, and a file is never written over a directory. So writing a file
changes what can be read at another path only if that path leads to the same place, and then both paths end in
the same name (`FileTree.textAt?_write`).

A path with another extension differs from the path in its last name only (`PathName.Splits.withExtension`),
so a file that is written there is found at the path itself only if the extension was no other one.
-/

namespace PldSynth

open Attempt List

/-! ## The last name of a path -/

namespace PathName

variable {path : String} {f x y : List Char} {ext last : String} {c : Char}

/-- The path is cut behind its last slash into `f` and `x`. -/
structure Splits (path : String) (f x : List Char) : Prop where
  toList : path.toList = f ++ x
  name : '/' ∉ x
  slash : f = [] ∨ ∃ f', f = f' ++ ['/']

/-- Every path is cut behind its last slash. -/
theorem exists_splits (path : String) : ∃ f x, Splits path f x := by
  refine ⟨(path.toList.reverse.dropWhile (· ≠ '/')).reverse,
    (path.toList.reverse.takeWhile (· ≠ '/')).reverse, ?_, ?_, ?_⟩
  · rw [← reverse_append, takeWhile_append_dropWhile, reverse_reverse]
  · intro hmem
    simpa using all_eq_true.mp all_takeWhile _ (mem_reverse.mp hmem)
  · cases hrest : path.toList.reverse.dropWhile (· ≠ '/') with
    | nil => exact .inl rfl
    | cons c rest =>
      have hc : c = '/' := by
        have hhead := head?_dropWhile_not (fun c : Char => decide (c ≠ '/')) path.toList.reverse
        rw [hrest] at hhead
        simpa using hhead
      exact .inr ⟨rest.reverse, by rw [hc, reverse_cons]⟩

/-- A last name that is neither empty nor a dot is not dropped. -/
theorem dropTail_of_name (hx : '/' ∉ x) (hne : x ≠ []) (hdot : x ≠ ['.']) :
    dropTail (x.reverse ++ f) = x.reverse ++ f := by
  have hx' : '/' ∉ x.reverse := by simpa using hx
  have hdot' : x.reverse ≠ ['.'] := by
    intro h
    exact hdot (by simpa using congrArg List.reverse h)
  rcases exists_cons_of_ne_nil (by simpa using hne : x.reverse ≠ []) with ⟨c, y, hy⟩
  rw [hy] at hx' hdot' ⊢
  simp only [mem_cons, not_or] at hx'
  unfold dropTail
  split
  · rename_i heq
    exact absurd (List.cons.inj heq).1.symm hx'.1
  · rename_i heq
    rcases List.cons.inj heq with ⟨rfl, hrest⟩
    cases y with
    | nil => exact absurd rfl hdot'
    | cons c' y =>
      have hc' := (List.cons.inj hrest).1
      simp [hc'] at hx'
  · rfl

namespace Splits

theorem getLast?_namesOf (h : Splits path f x) :
    (FileTree.namesOf path).getLast? = some (String.ofList x) := by
  rw [FileTree.namesOf, h.toList]
  rcases h.slash with rfl | ⟨f', rfl⟩
  · simp [Text.pieces_of_not_mem h.name]
  · rw [append_assoc, singleton_append, Text.pieces_append, Text.pieces_of_not_mem h.name]
    simp

/-- If the last name is more than a dot, nothing stands behind it. -/
theorem lastName (h : Splits path f x) (hne : x ≠ []) (hdot : x ≠ ['.']) :
    PathName.lastName path = x ∧ front path = f := by
  have hrev : reversed path = x.reverse ++ f.reverse := by
    rw [reversed, h.toList, reverse_append, dropTail_of_name h.name hne hdot]
  have hname : ∀ c ∈ x.reverse, decide (c ≠ '/') := by
    intro c hc
    rw [decide_eq_true_eq]
    rintro rfl
    exact h.name (mem_reverse.mp hc)
  have hslash : f.reverse = [] ∨ ∃ f', f.reverse = '/' :: f' := by
    rcases h.slash with rfl | ⟨f', rfl⟩
    · exact .inl rfl
    · exact .inr ⟨f'.reverse, by simp⟩
  rw [PathName.lastName, front, hrev, takeWhile_append_of_pos hname, dropWhile_append_of_pos hname]
  rcases hslash with hnil | ⟨f', hcons⟩
  · have hf : f = [] := by simpa using hnil
    simp [hf]
  · have hf : f = f'.reverse ++ ['/'] := by simpa using congrArg List.reverse hcons
    simp [hf]

end Splits

theorem stemOf_ne_nil (hne : x ≠ []) : stemOf x ≠ [] := by
  unfold stemOf
  split
  · split
    · exact hne
    · rename_i hbefore
      simpa using hbefore
  · exact hne

/-- Without its extension, a name that is more than a dot is still more than a dot. -/
theorem take_ne_of_name (hne : x ≠ []) (hdot : x ≠ ['.']) :
    x.take (x.length - (extensionOf x).length) ≠ [] ∧ x.take (x.length - (extensionOf x).length) ≠ ['.'] := by
  have hstem : 0 < (stemOf x).length := length_pos_of_ne_nil (stemOf_ne_nil hne)
  have hlen : (extensionOf x).length = x.length - ((stemOf x).length + 1) := by
    rw [extensionOf, length_drop]
  by_cases hshort : x.length ≤ (stemOf x).length + 1
  · have hnone : x.length - (extensionOf x).length = x.length := by omega
    rw [hnone, take_length]
    exact ⟨hne, hdot⟩
  · -- the dot behind the stem stays
    have htwo : 2 ≤ (x.take (x.length - (extensionOf x).length)).length := by
      rw [length_take]
      omega
    constructor <;> intro heq <;> simp [heq] at htwo

theorem stemOf_subset (x : List Char) : stemOf x ⊆ x := by
  unfold stemOf
  split
  · rename_i before heq
    split
    · exact List.Subset.refl _
    · intro c hc
      have hdrop : c ∈ x.reverse.dropWhile (· ≠ '.') := by
        rw [heq]
        exact mem_cons_of_mem _ (mem_reverse.mp hc)
      exact mem_reverse.mp ((dropWhile_sublist _).subset hdrop)
  · exact List.Subset.refl _

theorem Splits.dropExtension (h : Splits path f x) (hne : x ≠ []) (hdot : x ≠ ['.']) :
    Splits (PathName.dropExtension path) f (x.take (x.length - (extensionOf x).length)) := by
  refine ⟨?_, fun hmem => h.name (mem_of_mem_take hmem), h.slash⟩
  have hle : (extensionOf x).length ≤ x.length := by
    rw [extensionOf, length_drop]
    omega
  have hlen : path.length = f.length + x.length := by
    rw [← String.length_toList, h.toList, length_append]
  rw [PathName.dropExtension, (h.lastName hne hdot).1, String.toList_ofList, h.toList, hlen,
    Nat.add_sub_assoc hle, take_length_add_append]

/-- The path with another extension differs in its last name only, which then only points to a directory or
bears the extension. -/
theorem Splits.withExtension (h : Splits path f x) (hne : x ≠ []) (hdot : x ≠ ['.'])
    (hext : '/' ∉ ext.toList) : ∃ z, Splits (PathName.withExtension path ext) f z ∧
      (isPointer z ∨ ∃ s, z = s ++ '.' :: ext.toList) := by
  rcases h.lastName hne hdot with ⟨hlast, -⟩
  unfold PathName.withExtension
  rw [hlast]
  split
  · rename_i hpointer
    exact ⟨x, h, .inl hpointer⟩
  have hsplits := h.dropExtension hne hdot
  rcases take_ne_of_name hne hdot with ⟨hne', hdot'⟩
  rcases hsplits.lastName hne' hdot' with ⟨hlast', hfront⟩
  unfold extend
  dsimp only
  rw [hlast', hfront]
  split
  · rename_i hpointer
    exact ⟨_, hsplits, .inl hpointer⟩
  · refine ⟨stemOf (x.take (x.length - (extensionOf x).length)) ++ '.' :: ext.toList, ⟨?_, ?_, h.slash⟩, .inr ⟨_, rfl⟩⟩
    · simp
    · simp only [mem_append, mem_cons, not_or]
      exact ⟨fun hmem => hsplits.name (stemOf_subset _ hmem), by decide, hext⟩

/-- Where a path does not end in a slash, its last name ends as the path does. -/
theorem Splits.getLast? (h : Splits path f x) (hc : path.toList.getLast? = some c)
    (hslash : c ≠ '/') : x.getLast? = some c := by
  rw [h.toList, getLast?_append] at hc
  cases hx : x.getLast? with
  | some c' => simpa [hx] using hc
  | none =>
    rcases h.slash with rfl | ⟨f', rfl⟩
    · simp [hx] at hc
    · simp [hx] at hc
      exact absurd hc.symm hslash

/-- If a path and the path with another extension end in the same name of a file, the extension was no other
one. -/
theorem withExtension_eq_self (hext : '/' ∉ ext.toList)
    (hpath : (FileTree.namesOf path).getLast? = some last)
    (hdump : (FileTree.namesOf (withExtension path ext)).getLast? = some last)
    (hhere : FileTree.isHere last = false) : withExtension path ext = path := by
  rcases exists_splits path with ⟨f, x, h⟩
  obtain rfl := Option.mem_unique h.getLast?_namesOf hpath
  have hne : x ≠ [] := by
    rintro rfl
    cases hhere
  have hdot : x ≠ ['.'] := by
    rintro rfl
    cases hhere
  rcases h.withExtension hne hdot hext with ⟨z, hz, -⟩
  have hzx : z = x := String.ofList_injective (Option.mem_unique hz.getLast?_namesOf hdump)
  rw [← String.toList_inj, hz.toList, h.toList, hzx]

/-- The name of a file with another extension ends as the extension does. -/
theorem getLast?_withExtension {c' : Char} (hext : '/' ∉ ext.toList)
    (hc : path.toList.getLast? = some c) (hslash : c ≠ '/') (hdot : c ≠ '.')
    (hlast : (FileTree.namesOf (withExtension path ext)).getLast? = some last)
    (hhere : FileTree.isHere last = false) (hup : last ≠ "..") (hc' : ext.toList.getLast? = some c') :
    last.toList.getLast? = some c' := by
  rcases exists_splits path with ⟨f, x, h⟩
  have hx := h.getLast? hc hslash
  have hne : x ≠ [] := by
    rintro rfl
    cases hx
  have hxdot : x ≠ ['.'] := by
    rintro rfl
    exact hdot (Option.some.inj hx).symm
  rcases h.withExtension hne hxdot hext with ⟨z, hz, hpointer | ⟨s, rfl⟩⟩
  · obtain rfl := Option.mem_unique hz.getLast?_namesOf hlast
    simp only [isPointer, Bool.or_eq_true, decide_eq_true_eq] at hpointer
    rcases hpointer with (rfl | rfl) | rfl
    · cases hhere
    · cases hhere
    · exact absurd rfl hup
  · obtain rfl := Option.mem_unique hz.getLast?_namesOf hlast
    simp [getLast?_cons, hc']

end PathName

/-! ## Files that are put over no directory -/

namespace FileTree

variable {t t' : FileTree} {p q dir : Place} {s path text : String}

/-- The text of the file at a path, if there is a file. -/
def textAt? (t : FileTree) (dir : Place) (path : String) : Option String :=
  (t.read dir path).toOption

def Entry.text? : Entry → Option String
  | .file text => some text
  | .directory => none

theorem textAt?_eq : t.textAt? dir path = (t.find dir path).toOption.bind Entry.text? := by
  rw [textAt?, read]
  cases t.find dir path with
  | error _ => rfl
  | ok e => cases e <;> rfl

section Put

variable (hq : t.get? q ≠ some .directory)
include hq

theorem get?_put_file : (t.put q (.file s)).get? p = if p = q then some (.file s) else t.get? p := by
  have hroot : q ≠ [] := by
    rintro rfl
    exact hq rfl
  split
  · rename_i hp
    rw [hp, get?_put_self t _ hroot]
  · rename_i hp
    exact get?_put_of_ne t _ hp

/-- The directories that one comes to are the same. -/
theorem toOption_enter_put (name : String) :
    ((t.put q (.file s)).enter dir name).toOption = (t.enter dir name).toOption := by
  unfold enter
  rw [get?_put_file hq]
  by_cases hp : dir ++ [name] = q
  · have hfile : t.get? q = none ∨ ∃ s, t.get? q = some (.file s) := by
      cases hget : t.get? q with
      | none => exact .inl rfl
      | some e =>
        cases e with
        | file s => exact .inr ⟨s, rfl⟩
        | directory => exact absurd hget hq
    rw [if_pos hp, hp]
    rcases hfile with hget | ⟨s', hget⟩
    · rw [hget]
      split_ifs <;> rfl
    · rw [hget]
  · rw [if_neg hp]

/-- A path leads to what it led to, or to the file. -/
theorem toOption_follow_put (names : List String) :
    ((t.put q (.file s)).follow dir names).toOption = (t.follow dir names).toOption ∨
      ∃ last, names.getLast? = some last ∧ q.getLast? = some last ∧ isHere last = false ∧ last ≠ ".." ∧
        (t.put q (.file s)).follow dir names = .ok (.file s) := by
  induction names generalizing dir with
  | nil => exact .inl rfl
  | cons name rest ih =>
    cases rest with
    | nil =>
      unfold follow
      rw [get?_put_file hq]
      by_cases hp : dir ++ [name] = q
      · split_ifs with hpointer hlong
        · exact .inl rfl
        · exact .inl rfl
        · simp only [Bool.or_eq_true, decide_eq_true_eq, not_or, Bool.not_eq_true] at hpointer
          exact .inr ⟨name, rfl, by rw [← hp]; simp, hpointer.1, hpointer.2, rfl⟩
      · rw [if_neg hp]
        exact .inl rfl
    | cons name' rest =>
      have hstep : ∀ t : FileTree, t.follow dir (name :: name' :: rest) =
        t.enter dir name >>= fun dir => t.follow dir (name' :: rest) := fun _ => rfl
      rw [hstep, hstep]
      have henter : ((t.put q (.file s)).enter dir name).toOption = (t.enter dir name).toOption :=
        toOption_enter_put hq name
      cases hold : t.enter dir name with
      | ok d =>
        rw [hold] at henter
        rw [toOption_eq_some.mp henter]
        exact ih
      | error fault =>
        rw [hold] at henter
        cases hnew : (t.put q (.file s)).enter dir name with
        | ok d =>
          rw [hnew] at henter
          cases henter
        | error _ => exact .inl rfl

end Put

/-- A file is put under the last name of the path, and not over a directory. -/
theorem destination_spec (h : t.destination dir path = .ok q) :
    t.get? q ≠ some .directory ∧ (namesOf path).getLast? = q.getLast? := by
  unfold destination at h
  split at h
  · cases h
  dsimp only at h
  split at h
  · cases h
  rename_i last before hnames
  rw [bind_eq_ok] at h
  rcases h with ⟨d, -, h⟩
  split_ifs at h with hpointer hlong hdir
  cases h
  refine ⟨hdir, ?_⟩
  simp only [Bool.or_eq_true, decide_eq_true_eq, not_or] at hpointer
  rw [getLast?_append, getLast?_singleton, Option.some_or]
  -- no slash stands behind the last name
  rw [← head?_reverse] at hpointer ⊢
  cases hrev : (namesOf path).reverse with
  | nil => simp [hrev] at hnames
  | cons name rest =>
    rw [hrev] at hnames hpointer
    have hname : name ≠ "" := by simpa using hpointer.2
    rw [dropWhile_cons_of_neg (by simpa using hname)] at hnames
    rw [head?_cons, (List.cons.inj hnames).1]

/-- Writing a file changes no other text, unless the last names agree. -/
theorem textAt?_write (h : t.write dir path text = .ok t') (other : String) :
    t'.textAt? dir other = t.textAt? dir other ∨ ∃ last, (namesOf other).getLast? = some last ∧
      (namesOf path).getLast? = some last ∧ isHere last = false ∧ last ≠ ".." ∧
        t'.textAt? dir other = some text := by
  simp only [write, bind_eq_ok, pure_eq_ok] at h
  rcases h with ⟨q, hq, rfl⟩
  rcases destination_spec hq with ⟨hdir, hlast⟩
  rw [textAt?_eq, textAt?_eq, find, find]
  cases pathFault? other with
  | some _ => exact .inl rfl
  | none =>
    rcases toOption_follow_put hdir (namesOf other) with heq | ⟨last, h1, h2, h3, h4, h5⟩
    · exact .inl (congrArg (Option.bind · _) heq)
    · refine .inr ⟨last, h1, hlast.trans h2, h3, h4, ?_⟩
      rw [h5]
      rfl

end FileTree

/-- The text of the file at a path, if there is a file. -/
def World.textAt? (w : World) (path : String) : Option String :=
  w.tree.textAt? w.workingPlace path

/-- A write succeeds and changes the file at its path, and the files that other paths of the same ending lead
to, or it fails and changes nothing. -/
theorem World.write_cases (w : World) (path text : String) :
    (∃ tree, w.tree.write w.workingPlace path text = .ok tree ∧ w.write path text = (.ok (), { w with tree })) ∨
      ∃ fault, w.write path text = (.error fault, w) := by
  unfold World.write
  cases htree : w.tree.write w.workingPlace path text with
  | ok tree => exact .inl ⟨tree, rfl, rfl⟩
  | error fault => exact .inr ⟨fault, rfl⟩

end PldSynth
