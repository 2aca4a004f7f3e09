import KernelLib.RegistryKeys
import Mathlib.Data.List.Nodup

/-!
# The registry below a key

The keys below an opened key, with their values, and the calls on them as they
are documented. A key is named by the path from the opened one, a handle is
the path that was asked for. Names are compared up to case, and no two keys or
values of a key have the same name. Text is passed up to its first NUL.
-/

namespace KernelLib.RegistryTree

open WideMemory SplitPaths RegistryValues RegistryKeys

/-- How the registry compares characters of names. -/
structure Caseless where
  /-- The character that stands for those compared as equal. -/
  fold : WChar → WChar
  fold_nul : ∀ c, fold c = fold 0 → c = 0
  fold_slash : ∀ c, fold c = fold slash → c = slash

/-- Names that are compared as they are. -/
def exactNames : Caseless := ⟨id, fun _ h => h, fun _ h => h⟩

/-- The names of keys, from the opened one on. -/
abbrev Path := List WString

namespace Caseless

variable (F : Caseless)

/-- Names are the same up to case. -/
def name (n : WString) : WString := n.map F.fold

/-- Paths are the same up to case. -/
def path (p : Path) : Path := p.map F.name

@[simp] theorem path_nil : F.path [] = [] := rfl

@[simp] theorem path_append (p q : Path) : F.path (p ++ q) = F.path p ++ F.path q :=
  List.map_append

@[simp] theorem path_singleton (n : WString) : F.path [n] = [F.name n] := rfl

@[simp] theorem length_path (p : Path) : (F.path p).length = p.length := List.length_map ..

/-- A character that no other one is compared as equal to is in both names. -/
theorem mem_of_name_eq {m n : WString} {c : WChar} (hc : ∀ c', F.fold c' = F.fold c → c' = c)
    (h : F.name m = F.name n) (hn : c ∈ n) : c ∈ m := by
  have hmem : F.fold c ∈ F.name m := by
    rw [h]
    exact List.mem_map_of_mem hn
  obtain ⟨c', hc', heq⟩ := List.mem_map.mp hmem
  exact hc c' heq ▸ hc'

end Caseless

/-- A name of a key: not empty, without NULs and backslashes. -/
def NameOk (n : WString) : Prop := n ≠ [] ∧ 0 ∉ n ∧ backslash ∉ n

/-- The names and data of the values of a key. -/
abbrev Values := List (WString × Stored)

/-- Values without NULs in their names, no two of the same name. -/
structure ValuesOk (F : Caseless) (vs : Values) : Prop where
  named : ∀ v ∈ vs, 0 ∉ v.1
  unique : (vs.map fun v => F.name v.1).Nodup

/-- A key. -/
structure Key where
  /-- Its place below the opened key. -/
  path : Path
  values : Values

/-- A key that has other values when it is the one at a path. -/
def Key.update (F : Caseless) (p : Path) (f : Values → Values) (k : Key) : Key :=
  if F.path k.path = F.path p then { k with values := f k.values } else k

@[simp] theorem Key.update_path {F : Caseless} {p : Path} {f : Values → Values} (k : Key) :
    (k.update F p f).path = k.path := by
  unfold Key.update
  split <;> rfl

/-- The keys from an opened one on, each with the one above it. -/
structure Tree (F : Caseless) where
  keys : List Key
  named : ∀ k ∈ keys, ∀ n ∈ k.path, NameOk n
  valuesOk : ∀ k ∈ keys, ValuesOk F k.values
  unique : (keys.map fun k => F.path k.path).Nodup
  closed : ∀ k ∈ keys, ∀ p n, k.path = p ++ [n] → ∃ k' ∈ keys, k'.path = p

/-- Text as it is passed, up to the first NUL. -/
def cstr (s : WString) : WString := s.takeWhile (· ≠ 0)

/-- The names in a path that is passed. -/
def components (s : WString) : Path := segments backslash (cstr s)

/-- Text up to its first NUL has none. -/
theorem nul_not_mem_cstr (s : WString) : 0 ∉ cstr s := fun h => by
  simpa using List.mem_takeWhile_imp h

/-- Text without a NUL is passed whole. -/
theorem cstr_eq_self {s : WString} (h : 0 ∉ s) : cstr s = s := by
  rw [cstr, List.takeWhile_eq_self_iff]
  intro c hc
  simpa using fun h0 : c = 0 => h (h0 ▸ hc)

/-- What is between backslashes is a name. -/
theorem nameOk_of_mem_components {s n : WString} (h : n ∈ components s) : NameOk n := by
  obtain ⟨hne, hsep⟩ := mem_segments h
  have hnul : (0 : WChar) ≠ backslash := by decide
  exact ⟨hne, fun h0 => nul_not_mem_cstr s ((exists_mem_segments hnul).mp ⟨n, h, h0⟩), hsep⟩

/-- A name is passed as it is. -/
theorem components_of_nameOk {n : WString} (h : NameOk n) : components n = [n] := by
  rw [components, cstr_eq_self h.2.1, segments, List.splitOn_eq_singleton h.2.2]
  simp [h.1]

/-- A path of names is passed as they are. -/
theorem components_joined {ps : List WString} (h : ∀ n ∈ ps, NameOk n) :
    components (joined backslash ps) = ps := by
  have hnul : (0 : WChar) ≠ backslash := by decide
  rw [components, cstr_eq_self, segments_joined fun n hn => ⟨(h n hn).1, (h n hn).2.2⟩]
  rw [mem_joined hnul]
  rintro ⟨n, hn, h0⟩
  exact (h n hn).2.1 h0

namespace Tree

variable {F : Caseless}

/-- The opened key alone. -/
def root (F : Caseless) : Tree F where
  keys := [⟨[], []⟩]
  named := by simp
  valuesOk := by simp [ValuesOk.mk]
  unique := by simp
  closed := by simp

/-- The key at a path. -/
def find? (t : Tree F) (p : Path) : Option Key := t.keys.find? fun k => F.path k.path = F.path p

/-- The same keys, one of them with other values. -/
def withValues (t : Tree F) (p : Path) (f : Values → Values)
    (hf : ∀ vs, ValuesOk F vs → ValuesOk F (f vs)) : Tree F where
  keys := t.keys.map (Key.update F p f)
  named _ hmem := by
    obtain ⟨k, hk, rfl⟩ := List.mem_map.mp hmem
    rw [Key.update_path]
    exact t.named k hk
  valuesOk _ hmem := by
    obtain ⟨k, hk, rfl⟩ := List.mem_map.mp hmem
    unfold Key.update
    split
    · exact hf _ (t.valuesOk k hk)
    · exact t.valuesOk k hk
  unique := by simpa [Function.comp_def] using t.unique
  closed _ hmem q n hq := by
    obtain ⟨k, hk, rfl⟩ := List.mem_map.mp hmem
    rw [Key.update_path] at hq
    obtain ⟨k', hk', hpath⟩ := t.closed k hk q n hq
    exact ⟨_, List.mem_map_of_mem hk', by rw [Key.update_path, hpath]⟩

/-- A new key without values below the one at a path. -/
def addKey (t : Tree F) (p : Path) (n : WString) (hn : NameOk n) : Tree F :=
  match hp : t.find? p, hq : t.find? (p ++ [n]) with
  | some k, none =>
    { keys := t.keys ++ [⟨k.path ++ [n], []⟩]
      named := by
        intro k' hk' m hm
        rcases List.mem_append.mp hk' with hk' | hk'
        · exact t.named k' hk' m hm
        · rw [List.mem_singleton.mp hk', List.mem_append, List.mem_singleton] at hm
          rcases hm with hm | rfl
          · exact t.named k (List.mem_of_find?_eq_some hp) m hm
          · exact hn
      valuesOk := by
        intro k' hk'
        rcases List.mem_append.mp hk' with hk' | hk'
        · exact t.valuesOk k' hk'
        · rw [List.mem_singleton.mp hk']
          exact ⟨by simp, by simp⟩
      unique := by
        have hkp : F.path k.path = F.path p := by simpa using List.find?_some hp
        rw [List.map_append, List.map_singleton]
        refine List.Nodup.append t.unique (List.nodup_singleton _) ?_
        intro x hx hy
        obtain ⟨k', hk', rfl⟩ := List.mem_map.mp hx
        have hnone := List.find?_eq_none.mp hq k' hk'
        rw [List.mem_singleton, Caseless.path_append, hkp, ← Caseless.path_append] at hy
        exact hnone (by simpa using hy)
      closed := by
        intro k' hk' q m hq
        rcases List.mem_append.mp hk' with hk' | hk'
        · obtain ⟨k', hk', hpath⟩ := t.closed k' hk' q m hq
          exact ⟨k', List.mem_append_left _ hk', hpath⟩
        · rw [List.mem_singleton.mp hk'] at hq
          obtain ⟨rfl, -⟩ := List.append_inj' hq rfl
          exact ⟨k, List.mem_append_left _ (List.mem_of_find?_eq_some hp), rfl⟩ }
  | _, _ => t

/-- New keys for the names behind a path that are not there. -/
def addKeys (t : Tree F) (p : Path) : (ns : List WString) → (∀ n ∈ ns, NameOk n) → Tree F
  | [], _ => t
  | n :: ns, h => addKeys (t.addKey p n (h n List.mem_cons_self)) (p ++ [n]) ns
      fun m hm => h m (List.mem_cons_of_mem _ hm)

/-- The names of the keys right below a path. -/
def subkeys (t : Tree F) (p : Path) : List WString := t.keys.filterMap fun k =>
  if k.path ≠ [] ∧ F.path k.path.dropLast = F.path p then k.path.getLast? else none

/-- A key below a path has a name. -/
theorem subkeys_ne_nil {t : Tree F} {k : Key} {p q : Path} {n : WString} (hk : k ∈ t.keys)
    (hpath : k.path = q ++ [n]) (hq : F.path q = F.path p) : t.subkeys p ≠ [] := by
  refine List.ne_nil_of_mem (a := n) (List.mem_filterMap.mpr ⟨k, hk, ?_⟩)
  rw [hpath, List.dropLast_concat, if_pos ⟨by simp, hq⟩, List.getLast?_concat]

/-- The keys without one that has none below it. -/
def eraseKey (t : Tree F) (p : Path) (hp : t.subkeys p = []) : Tree F where
  keys := t.keys.filter fun k => F.path k.path ≠ F.path p
  named k hk := t.named k (List.mem_filter.mp hk).1
  valuesOk k hk := t.valuesOk k (List.mem_filter.mp hk).1
  unique := t.unique.sublist (List.filter_sublist.map _)
  closed k hk q n hq := by
    obtain ⟨k', hk', rfl⟩ := t.closed k (List.mem_filter.mp hk).1 q n hq
    refine ⟨k', List.mem_filter.mpr ⟨hk', ?_⟩, rfl⟩
    rw [decide_eq_true_eq]
    exact fun heq => subkeys_ne_nil (List.mem_filter.mp hk).1 hq heq hp

/-- `RegOpenKeyEx`. -/
def regOpenKeyEx (t : Tree F) (handle : Path) (subKey : WString) : Option Path :=
  let p := handle ++ components subKey
  if (t.find? p).isSome then some p else none

/-- `RegCreateKeyEx`. -/
def regCreateKeyEx (t : Tree F) (handle : Path) (subKey : WString) : Option (Tree F × Path) :=
  if (t.find? handle).isSome then
    some (t.addKeys handle (components subKey) fun _ hn => nameOk_of_mem_components hn,
      handle ++ components subKey)
  else none

/-- `RegQueryValueEx`. -/
def regQueryValueEx (t : Tree F) (handle : Path) (name : WString) : Option Stored := do
  let k ← t.find? handle
  let v ← k.values.find? fun v => F.name v.1 = F.name (cstr name)
  return v.2

/-- The values with one set. -/
def setIn (F : Caseless) (name : WString) (st : Stored) (vs : Values) : Values :=
  if ∃ v ∈ vs, F.name v.1 = F.name name then
    vs.map fun v => if F.name v.1 = F.name name then (v.1, st) else v
  else vs ++ [(name, st)]

/-- The values without one. -/
def deleteIn (F : Caseless) (name : WString) (vs : Values) : Values :=
  vs.filter fun v => F.name v.1 ≠ F.name name

/-- Setting a value keeps the names apart. -/
theorem setIn_ok {name : WString} {st : Stored} {vs : Values} (hn : 0 ∉ name)
    (h : ValuesOk F vs) : ValuesOk F (setIn F name st vs) := by
  unfold setIn
  split
  · constructor
    · intro _ hmem
      obtain ⟨v, hv, rfl⟩ := List.mem_map.mp hmem
      split <;> exact h.named v hv
    · rw [List.map_map]
      convert! h.unique using 2
      funext v
      rw [Function.comp_apply]
      split <;> rfl
  · next hnot =>
    constructor
    · intro v hv
      rcases List.mem_append.mp hv with hv | hv
      · exact h.named v hv
      · rwa [List.mem_singleton.mp hv]
    · rw [List.map_append, List.map_singleton]
      refine List.Nodup.append h.unique (List.nodup_singleton _) ?_
      intro x hx hy
      obtain ⟨v, hv, rfl⟩ := List.mem_map.mp hx
      exact hnot ⟨v, hv, List.mem_singleton.mp hy⟩

/-- So does deleting one. -/
theorem deleteIn_ok {name : WString} {vs : Values} (h : ValuesOk F vs) :
    ValuesOk F (deleteIn F name vs) :=
  ⟨fun v hv => h.named v (List.mem_filter.mp hv).1,
    h.unique.sublist (List.filter_sublist.map _)⟩

/-- `RegSetValueEx`. -/
def regSetValueEx (t : Tree F) (handle : Path) (name : WString) (st : Stored) : Tree F :=
  t.withValues handle (setIn F (cstr name) st) fun _ h => setIn_ok (nul_not_mem_cstr name) h

/-- `RegDeleteValue`. -/
def regDeleteValue (t : Tree F) (handle : Path) (name : WString) : Tree F :=
  t.withValues handle (deleteIn F (cstr name)) fun _ h => deleteIn_ok h

/-- `RegDeleteKey`. -/
def regDeleteKey (t : Tree F) (handle : Path) (subKey : WString) : Option (Tree F) :=
  let p := handle ++ components subKey
  if h : (t.find? p).isSome ∧ t.subkeys p = [] then some (t.eraseKey p h.2) else none

/-- `RegEnumValue` for each index. -/
def regEnumValue (t : Tree F) (handle : Path) : List WString :=
  match t.find? handle with
  | none => []
  | some k => k.values.map (·.1)

/-- `RegEnumKeyEx` for each index. -/
def regEnumKeyEx (t : Tree F) (handle : Path) : List WString := t.subkeys handle

section Lookup

variable {t : Tree F} {p q : Path} {k : Key} {n name : WString} {st : Stored}

/-- A key is found by each path that is the same up to case. -/
theorem find?_eq_some : t.find? p = some k ↔ k ∈ t.keys ∧ F.path k.path = F.path p := by
  constructor
  · intro h
    exact ⟨List.mem_of_find?_eq_some h, by simpa using List.find?_some h⟩
  · rintro ⟨hk, hp⟩
    cases hf : t.find? p with
    | none =>
      have hnone := List.find?_eq_none.mp hf k hk
      simp [hp] at hnone
    | some k' =>
      have hk' := List.mem_of_find?_eq_some hf
      have hp' : F.path k'.path = F.path p := by simpa using List.find?_some hf
      rw [List.inj_on_of_nodup_map t.unique hk' hk (hp'.trans hp.symm)]

/-- A path leads to a key that has the same path up to case. -/
theorem find?_isSome : (t.find? p).isSome ↔ ∃ k ∈ t.keys, F.path k.path = F.path p := by
  simp only [Option.isSome_iff_exists, find?_eq_some]

/-- A key right below a path has one name more. -/
theorem mem_subkeys : n ∈ t.subkeys p ↔ ∃ k ∈ t.keys, ∃ q, k.path = q ++ [n] ∧
    F.path q = F.path p := by
  rw [subkeys, List.mem_filterMap]
  constructor
  · rintro ⟨k, hk, h⟩
    split at h
    · next hp =>
      exact ⟨k, hk, k.path.dropLast, (List.dropLast_append_getLast? n h).symm, hp.2⟩
    · cases h
  · rintro ⟨k, hk, q, hpath, hq⟩
    refine ⟨k, hk, ?_⟩
    rw [hpath, List.dropLast_concat, if_pos ⟨by simp, hq⟩, List.getLast?_concat]

/-- Changing the values of a key does not move it. -/
@[simp] theorem find?_withValues {f : Values → Values} {hf} :
    (t.withValues q f hf).find? p = (t.find? p).map (Key.update F q f) := by
  rw [find?, withValues, List.find?_map]
  congr 2
  funext k
  simp

/-- A value that is set is found. -/
theorem regQueryValueEx_regSetValueEx (h : (t.find? p).isSome) :
    (t.regSetValueEx p name st).regQueryValueEx p name = some st := by
  obtain ⟨k, hk⟩ := Option.isSome_iff_exists.mp h
  have hp := (find?_eq_some.mp hk).2
  rw [regQueryValueEx, regSetValueEx, find?_withValues, hk, Option.map_some, Key.update, if_pos hp,
    Option.bind_eq_bind, Option.bind_some, setIn]
  split
  · next hex =>
    obtain ⟨v, hv, hn⟩ := hex
    rw [List.find?_map]
    have hsome : (k.values.find? fun v => F.name v.1 = F.name (cstr name)).isSome := by
      rw [List.find?_isSome]
      exact ⟨v, hv, by simpa using hn⟩
    obtain ⟨w, hw⟩ := Option.isSome_iff_exists.mp hsome
    have hname : F.name w.1 = F.name (cstr name) := by simpa using List.find?_some hw
    have hcomp : ((fun v : WString × Stored => decide (F.name v.1 = F.name (cstr name))) ∘
        fun v => if F.name v.1 = F.name (cstr name) then (v.1, st) else v) =
          fun v => decide (F.name v.1 = F.name (cstr name)) := by
      funext v
      rw [Function.comp_apply]
      split <;> rfl
    rw [hcomp, hw]
    simp [hname]
  · next hnot =>
    have hnone : (k.values.find? fun v => F.name v.1 = F.name (cstr name)) = none := by
      rw [List.find?_eq_none]
      intro v hv
      simpa using fun h => hnot ⟨v, hv, h⟩
    rw [List.find?_append, hnone]
    simp

/-- A key that was added is there. -/
theorem addKey_find? (hn : NameOk n) (h : (t.find? p).isSome) :
    ((t.addKey p n hn).find? (p ++ [n])).isSome := by
  obtain ⟨k, hk⟩ := Option.isSome_iff_exists.mp h
  unfold addKey
  split
  · next k' hk' hnone =>
    refine find?_isSome.mpr ⟨_, List.mem_append_right _ List.mem_cons_self, ?_⟩
    rw [Caseless.path_append, Caseless.path_append, (find?_eq_some.mp hk').2]
  · next hnot =>
    cases hq : t.find? (p ++ [n]) with
    | none => exact absurd hq (hnot k hk)
    | some _ => rfl

/-- Keys that are created are there. -/
theorem addKeys_find? {ns : List WString} (hns : ∀ n ∈ ns, NameOk n) (h : (t.find? p).isSome) :
    ((t.addKeys p ns hns).find? (p ++ ns)).isSome := by
  induction ns generalizing t p with
  | nil => simpa [addKeys] using h
  | cons n ns ih =>
    have hkey := ih (fun m hm => hns m (List.mem_cons_of_mem _ hm))
      (addKey_find? (hns n List.mem_cons_self) h)
    rwa [List.append_assoc] at hkey

/-- The opened key is only found by the empty path. -/
theorem root_find? : ((root F).find? p).isSome ↔ p = [] := by
  rw [find?_isSome, root]
  constructor
  · rintro ⟨k, hk, hp⟩
    rw [List.mem_singleton.mp hk] at hp
    exact List.map_eq_nil_iff.mp hp.symm
  · rintro rfl
    exact ⟨_, List.mem_cons_self, rfl⟩

end Lookup

end Tree

end KernelLib.RegistryTree
