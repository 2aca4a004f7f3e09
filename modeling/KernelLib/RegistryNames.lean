import KernelLib.RegistryRoundTrip

/-!
# The names of all values

`Registry::allKeys` walks over all keys below the location and joins the names
on the way with backslashes. It has one name for each value. The lookups take
slashes between names and a backslash for a part of one, so that they find
the values of the location itself, and those only.
-/

namespace KernelLib.RegistryNames

open WideMemory SplitPaths RegistryValues RegistryKeys RegistryTree RegistryCalls RegistryRoundTrip

variable {F : Caseless} {t : Tree F}

/-- A value and its place. -/
structure Entry where
  /-- The key that it is in. -/
  path : Path
  name : WString
  stored : Stored
  deriving DecidableEq

/-- All values of a tree. -/
def entries (t : Tree F) : List Entry :=
  t.keys.flatMap fun k => k.values.map fun v => ⟨k.path, v.1, v.2⟩

/-- How a value's name is listed. -/
def shown (n : WString) : WString := if n = [] then dot else n

/-- The names on the way to a value, with backslashes between them. -/
def listed (e : Entry) : WString := joined backslash (e.path ++ [shown e.name])

/-- The entries are the values of all keys. -/
theorem mem_entries {e : Entry} :
    e ∈ entries t ↔ ∃ k ∈ t.keys, k.path = e.path ∧ (e.name, e.stored) ∈ k.values := by
  rw [entries, List.mem_flatMap]
  constructor
  · rintro ⟨k, hk, he⟩
    obtain ⟨v, hv, rfl⟩ := List.mem_map.mp he
    exact ⟨k, hk, rfl, hv⟩
  · rintro ⟨k, hk, hpath, hv⟩
    refine ⟨k, hk, List.mem_map.mpr ⟨_, hv, ?_⟩⟩
    rw [hpath]

section Sets

variable {ns ns' ns'' : NameSet} {S S' : WString → Prop} {s x : WString}

/-- A set that has some more names, and those only. -/
structure Adds (S : WString → Prop) (ns ns' : NameSet) : Prop where
  nodup : ns.Nodup → ns'.Nodup
  mem : ∀ x, x ∈ ns' ↔ x ∈ ns ∨ S x

/-- An insertion adds the name. -/
theorem adds_insert : Adds (· = s) ns (ns.insert s) := by
  unfold NameSet.insert
  split
  · next hs =>
    refine ⟨id, fun x => ⟨.inl, ?_⟩⟩
    rintro (h | rfl)
    · exact h
    · exact hs
  · next hs =>
    refine ⟨fun h => ?_, fun x => ?_⟩
    · rw [(List.perm_orderedInsert _ _ _).nodup_iff, List.nodup_cons]
      exact ⟨hs, h⟩
    · rw [List.mem_orderedInsert, or_comm]

/-- Nothing is added. -/
theorem Adds.refl : Adds (fun _ => False) ns ns := ⟨id, fun x => by simp⟩

/-- Two additions add what each of them does. -/
theorem Adds.trans (h : Adds S ns ns') (h' : Adds S' ns' ns'') :
    Adds (fun x => S x ∨ S' x) ns ns'' :=
  ⟨fun hn => h'.nodup (h.nodup hn), fun x => by rw [h'.mem, h.mem, or_assoc]⟩

/-- The same names are added. -/
theorem Adds.congr (h : Adds S ns ns') (hS : ∀ x, S x ↔ S' x) : Adds S' ns ns' :=
  ⟨h.nodup, fun x => by rw [h.mem, hS]⟩

/-- Inserting one after the other adds all. -/
theorem adds_foldl {α : Type} (f : α → WString) (items : List α) :
    Adds (fun x => ∃ a ∈ items, x = f a) ns (items.foldl (fun ns a => ns.insert (f a)) ns) := by
  induction items generalizing ns with
  | nil => exact Adds.refl.congr fun x => by simp
  | cons a items ih =>
    rw [List.foldl_cons]
    exact (adds_insert.trans ih).congr fun x => by simp

/-- Calls that each add some names add all of them. -/
theorem adds_foldlM {α : Type} {f : NameSet → α → Option NameSet} {S : α → WString → Prop}
    {items : List α} (hf : ∀ a ∈ items, ∀ ns, ∃ ns', f ns a = some ns' ∧ Adds (S a) ns ns')
    (ns : NameSet) :
    ∃ ns', items.foldlM f ns = some ns' ∧ Adds (fun x => ∃ a ∈ items, S a x) ns ns' := by
  induction items generalizing ns with
  | nil => exact ⟨ns, rfl, Adds.refl.congr fun x => by simp⟩
  | cons a items ih =>
    obtain ⟨ns₁, h₁, hadds₁⟩ := hf a List.mem_cons_self ns
    obtain ⟨ns', h', hadds'⟩ := ih (fun b hb => hf b (List.mem_cons_of_mem _ hb)) ns₁
    refine ⟨ns', ?_, (hadds₁.trans hadds').congr fun x => by simp⟩
    rw [List.foldlM_cons, h₁]
    exact h'

end Sets

section Walk

variable {k : Key} {p q : Path} {ns : NameSet}

/-- A key is found at its path. -/
theorem find?_path (hk : k ∈ t.keys) : t.find? k.path = some k := Tree.find?_eq_some.mpr ⟨hk, rfl⟩

/-- Two keys at one path are one key. -/
theorem key_unique {k' : Key} (hk : k ∈ t.keys) (hk' : k' ∈ t.keys)
    (h : F.path k'.path = F.path k.path) : k' = k :=
  List.inj_on_of_nodup_map t.unique hk' hk h

/-- Above a key are keys. -/
theorem exists_key_above (hk : k ∈ t.keys) (rest : Path) (h : k.path = p ++ rest) :
    ∃ k' ∈ t.keys, k'.path = p := by
  induction rest using List.reverseRecOn generalizing k with
  | nil => exact ⟨k, hk, by rw [h, List.append_nil]⟩
  | append_singleton rest n ih =>
    obtain ⟨k', hk', hpath⟩ := t.closed k hk (p ++ rest) n (by rw [h, List.append_assoc])
    exact ih hk' hpath

/-- The groups of a key are the last names of the keys right below it. -/
theorem mem_childGroups (hk : k ∈ t.keys) {n : WString} :
    n ∈ childKeysOrGroups t k.path .childGroups ↔ ∃ k' ∈ t.keys, k'.path = k.path ++ [n] := by
  have hshown : ∀ m, m ∈ t.subkeys k.path → (if m = [] then dot else m) = m := by
    intro m hm
    obtain ⟨k', hk', q, hpath, -⟩ := Tree.mem_subkeys.mp hm
    exact if_neg (t.named k' hk' m (by rw [hpath]; simp)).1
  rw [childKeysOrGroups, if_neg (by decide), Tree.regEnumKeyEx, List.map_congr_left hshown,
    List.map_id', Tree.mem_subkeys]
  constructor
  · rintro ⟨k', hk', q, hpath, hq⟩
    obtain ⟨k₀, hk₀, rfl⟩ := t.closed k' hk' q n hpath
    exact ⟨k', hk', by rw [hpath, key_unique hk hk₀ hq]⟩
  · rintro ⟨k', hk', hpath⟩
    exact ⟨k', hk', k.path, hpath, rfl⟩

/-- A value in a key or below it is one of the key or of a group in it. -/
theorem below_iff {e : Entry} (hk : k ∈ t.keys) (he : e ∈ entries t) :
    k.path <+: e.path ↔ e.path = k.path ∨
      ∃ n ∈ childKeysOrGroups t k.path .childGroups, k.path ++ [n] <+: e.path := by
  constructor
  · rintro ⟨rest, hrest⟩
    cases rest with
    | nil => exact .inl (by rw [← hrest, List.append_nil])
    | cons n rest =>
      obtain ⟨k', hk', hpath, -⟩ := mem_entries.mp he
      have hsplit : k'.path = (k.path ++ [n]) ++ rest := by
        rw [hpath, ← hrest, List.append_assoc]
        rfl
      exact .inr ⟨n, (mem_childGroups hk).mpr (exists_key_above hk' rest hsplit),
        ⟨rest, by rw [← hsplit, hpath]⟩⟩
  · rintro (h | ⟨n, -, h⟩)
    · exact h ▸ List.prefix_refl _
    · exact (List.prefix_append _ _).trans h

/-- The text of the path of a key, with the separator behind it. -/
theorem path_then_name (hk : k ∈ t.keys) (n : WString) :
    (if joined backslash k.path ≠ [] then joined backslash k.path ++ [backslash]
      else joined backslash k.path) ++ n = joined backslash (k.path ++ [n]) := by
  rw [joined_append_singleton]
  by_cases hp : k.path = []
  · rw [hp]
    rfl
  · have hne : joined backslash k.path ≠ [] := by
      obtain ⟨ps, m, hpm⟩ : ∃ ps m, k.path = ps ++ [m] :=
        ⟨_, _, (List.dropLast_append_getLast hp).symm⟩
      have hm := (t.named k hk m (by rw [hpm]; simp)).1
      rw [hpm, joined_append_singleton]
      simp [hm]
    rw [if_pos hne, terminated_eq_joined hp]

/-- The walk from a key adds the names of all values in it and below it. -/
theorem allKeys_spec (depth : ℕ) (hk : k ∈ t.keys)
    (hdepth : ∀ k' ∈ t.keys, k'.path.length < k.path.length + depth) (ns : NameSet) :
    ∃ ns', allKeys depth t [] (joined backslash k.path) ns = some ns' ∧
      Adds (fun x => ∃ e ∈ entries t, k.path <+: e.path ∧ x = listed e) ns ns' := by
  induction depth generalizing k ns with
  | zero => exact absurd (hdepth k hk) (Nat.lt_irrefl _)
  | succ depth ih =>
    have hopen : openKey t [] (joined backslash k.path) = some k.path := by
      rw [openKey, Tree.regOpenKeyEx, components_joined (t.named k hk)]
      simp [find?_path hk]
    have hvalues : childKeysOrGroups t k.path .childKeys = k.values.map fun v => shown v.1 := by
      rw [childKeysOrGroups, if_pos rfl, Tree.regEnumValue, find?_path hk, List.map_map]
      rfl
    have hgroup : ∀ n ∈ childKeysOrGroups t k.path .childGroups, ∀ ns, ∃ ns',
        allKeys depth t [] (joined backslash (k.path ++ [n])) ns = some ns' ∧
          Adds (fun x => ∃ e ∈ entries t, k.path ++ [n] <+: e.path ∧ x = listed e) ns ns' := by
      intro n hn ns
      obtain ⟨k', hk', hpath⟩ := (mem_childGroups hk).mp hn
      rw [← hpath]
      refine ih hk' (fun k'' hk'' => ?_) ns
      have hlen := hdepth k'' hk''
      rw [hpath, List.length_append, List.length_singleton]
      omega
    obtain ⟨ns', hns', hadds⟩ := adds_foldlM hgroup ((childKeysOrGroups t k.path .childKeys).foldl
      (fun ns n => ns.insert (joined backslash (k.path ++ [n]))) ns)
    refine ⟨ns', ?_, ((adds_foldl _ _).trans hadds).congr fun x => ?_⟩
    · rw [allKeys, hopen]
      simp only [path_then_name hk]
      exact hns'
    · constructor
      · rintro (⟨n, hn, rfl⟩ | ⟨n, hn, e, he, hpre, rfl⟩)
        · rw [hvalues] at hn
          obtain ⟨v, hv, rfl⟩ := List.mem_map.mp hn
          exact ⟨⟨k.path, v.1, v.2⟩, mem_entries.mpr ⟨k, hk, rfl, hv⟩, List.prefix_refl _, rfl⟩
        · exact ⟨e, he, (List.prefix_append _ _).trans hpre, rfl⟩
      · rintro ⟨e, he, hpre, rfl⟩
        rcases (below_iff hk he).mp hpre with hpath | ⟨n, hn, hpre⟩
        · obtain ⟨k', hk', hpath', hv⟩ := mem_entries.mp he
          obtain rfl : k' = k := key_unique hk hk' (by rw [hpath', hpath])
          refine .inl ⟨shown e.name, ?_, by rw [listed, hpath]⟩
          rw [hvalues]
          exact List.mem_map.mpr ⟨_, hv, rfl⟩
        · exact .inr ⟨n, hn, e, he, hpre, rfl⟩

end Walk

/-- A name that is not one of those with another meaning in a key. -/
structure PlainName (n : WString) : Prop where
  noSlash : slash ∉ n
  noBackslash : backslash ∉ n
  notDefault : n ≠ defaultName
  notDot : n ≠ dot

instance (n : WString) : Decidable (PlainName n) :=
  decidable_of_iff (slash ∉ n ∧ backslash ∉ n ∧ n ≠ defaultName ∧ n ≠ dot)
    ⟨fun ⟨a, b, c, d⟩ => ⟨a, b, c, d⟩, fun ⟨a, b, c, d⟩ => ⟨a, b, c, d⟩⟩

/-- All names of keys and values are plain. -/
structure PlainNames (t : Tree F) : Prop where
  keys : ∀ k ∈ t.keys, ∀ n ∈ k.path, PlainName n
  values : ∀ k ∈ t.keys, ∀ v ∈ k.values, PlainName v.1

/-- The location is open and still there. -/
structure Readable (d : RegistryPrivate F) : Prop where
  opened : ∃ key, d.regList = some key ∧ key.opened = true
  found : (d.tree.find? []).isSome

section Listing

variable {d : RegistryPrivate F} {n m : WString} {e e' : Entry}

/-- A name is never shown as nothing. -/
theorem shown_ne_nil (n : WString) : shown n ≠ [] := by
  unfold shown
  split
  · simp [dot]
  · assumption

/-- Two plain names are not shown alike. -/
theorem shown_injective (hn : PlainName n) (hm : PlainName m) (h : shown n = shown m) : n = m := by
  unfold shown at h
  split at h <;> split at h
  · simp_all
  · exact absurd h.symm hm.notDot
  · exact absurd h hn.notDot
  · exact h

/-- Neither separator is in a name that is listed. -/
theorem not_mem_shown {c : WChar} (hc : c ∉ dot) (hn : c ∉ n) : c ∉ shown n := by
  unfold shown
  split <;> assumption

/-- A key and a value name that are plain can be told from what is listed. -/
theorem listed_injective (hplain : PlainNames t) (he : e ∈ entries t) (he' : e' ∈ entries t)
    (h : listed e = listed e') : e.path = e'.path ∧ e.name = e'.name := by
  have hsplit : ∀ e ∈ entries t, (listed e).splitOn backslash = e.path ++ [shown e.name] := by
    intro e he
    obtain ⟨k, hk, hpath, hv⟩ := mem_entries.mp he
    refine List.splitOn_intercalate backslash (fun n hn => ?_) (by simp)
    rcases List.mem_append.mp hn with hn | hn
    · exact (hplain.keys k hk n (hpath ▸ hn)).noBackslash
    · rw [List.mem_singleton.mp hn]
      exact not_mem_shown (by decide) (hplain.values k hk _ hv).noBackslash
  obtain ⟨k, hk, -, hv⟩ := mem_entries.mp he
  obtain ⟨k', hk', -, hv'⟩ := mem_entries.mp he'
  have heq := (hsplit e he).symm.trans ((congrArg (List.splitOn backslash) h).trans (hsplit e' he'))
  obtain ⟨hpath, hname⟩ := List.append_inj' heq rfl
  exact ⟨hpath, shown_injective (hplain.values k hk _ hv) (hplain.values k' hk' _ hv')
    (List.singleton_inj.mp hname)⟩

/-- No two values have the same name on the list. -/
theorem nodup_listed (hplain : PlainNames t) : ((entries t).map listed).Nodup := by
  have hvalues : ∀ k ∈ t.keys, (k.values.map fun v => (⟨k.path, v.1, v.2⟩ : Entry)).Nodup := by
    intro k hk
    refine List.Nodup.of_map (fun e => F.name e.name) ?_
    rw [List.map_map]
    exact (t.valuesOk k hk).unique
  refine List.Nodup.map_on (fun e he e' he' h => ?_) ?_
  · obtain ⟨hpath, hname⟩ := listed_injective hplain he he' h
    obtain ⟨k, hk, hkp, hv⟩ := mem_entries.mp he
    obtain ⟨k', hk', hkp', hv'⟩ := mem_entries.mp he'
    obtain rfl : k' = k := key_unique hk hk' (by rw [hkp, hkp', hpath])
    have hinj := List.inj_on_of_nodup_map (t.valuesOk k' hk).unique hv hv' (congrArg F.name hname)
    cases e
    cases e'
    simp_all
  · rw [entries, List.nodup_flatMap]
    refine ⟨hvalues, ?_⟩
    have hkeys := t.unique
    rw [List.Nodup, List.pairwise_map] at hkeys
    refine hkeys.imp fun hne e he he' => hne ?_
    obtain ⟨v, -, rfl⟩ := List.mem_map.mp he
    obtain ⟨v', -, hv'⟩ := List.mem_map.mp he'
    exact congrArg (fun e => F.path e.path) hv'.symm

/-- The list has the name of each value, once. -/
theorem allKeys_eq {reg : Registry F} (h : Readable reg.d) :
    ∃ names, reg.allKeys = some names ∧ names.Nodup ∧
      ∀ x, x ∈ names ↔ ∃ e ∈ entries reg.d.tree, x = listed e := by
  obtain ⟨key, hkey, hopened⟩ := h.opened
  obtain ⟨k, hk⟩ := Option.isSome_iff_exists.mp h.found
  obtain ⟨hmem, hpath⟩ := Tree.find?_eq_some.mp hk
  have hroot : k.path = [] := List.map_eq_nil_iff.mp hpath
  obtain ⟨keys, hkeys, hadds⟩ := allKeys_spec (height reg.d.tree + 1) hmem (fun k' hk' => by
    have := length_le_height hk'
    omega) []
  rw [hroot] at hkeys hadds
  have hmerge : Adds (fun x => ∃ a ∈ keys, x = a) [] (mergeKeySets [] keys) :=
    adds_foldl (fun a => a) keys
  have hopen : openKey reg.d.tree [] [] = some [] := by
    rw [openKey, Tree.regOpenKeyEx]
    simp [show components [] = [] from rfl, h.found]
  refine ⟨mergeKeySets [] keys, ?_, hmerge.nodup List.nodup_nil, fun x => ?_⟩
  · rw [Registry.allKeys, RegistryPrivate.children, hkey]
    simp only [hopened, groupPrefix, escapedKey, List.map_nil, hopen]
    simp only [Bool.not_true, Bool.false_eq_true, if_false, if_true]
    rw [show allKeys (height reg.d.tree + 1) reg.d.tree [] [] [] = some keys from hkeys]
    rfl
  · rw [hmerge.mem]
    simp only [List.not_mem_nil, false_or, exists_eq_right', hadds.mem, List.nil_prefix, true_and]

end Listing

section Lookups

variable {reg : Registry F} {x n : WString} {e : Entry}

/-- Text without the separator of the registry is a value of the location. -/
theorem stored_of_not_mem (hfound : (t.find? []).isSome) (hx : backslash ∉ x) :
    stored t [] x = t.regQueryValueEx [] (valueName x) := by
  have hjoin : x = joined backslash ([] ++ [x]) := by simp
  have hpath : keyPath x = [] := by
    rw [hjoin, keyPath_joined hx]
    rfl
  have hname : keyName x = valueName x := by
    nth_rewrite 1 [hjoin]
    rw [keyName_joined hx]
  have hopen : openKey t [] [] = some [] := by
    rw [openKey, Tree.regOpenKeyEx]
    simp [show components [] = [] from rfl, hfound]
  rw [stored, hpath, hname, hopen]
  rfl

/-- Text without a slash goes through normalisation. -/
theorem actualKey_of_not_mem (hx : slash ∉ x) (hne : x ≠ []) : actualKey x = some x := by
  rw [actualKey, normalizedKey_eq, leading_of_not_mem hne hx]
  simp [groupPrefix]

/-- What is looked up under text without a slash is a value of the location. -/
theorem get_of_not_mem (h : Readable reg.d) (hx : slash ∉ x) :
    reg.d.get x = decoded (reg.d.tree.regQueryValueEx [] (valueName (escapedKey x))) := by
  obtain ⟨key, hkey, hopened⟩ := h.opened
  rw [RegistryPrivate.get, hkey]
  simp only [hopened, if_true]
  rw [readKey_eq, stored_of_not_mem h.found (backslash_not_mem_escapedKey hx)]

/-- A name with neither separator is escaped as it is. -/
theorem escapedKey_eq_self (hs : slash ∉ n) (hb : backslash ∉ n) : escapedKey n = n := by
  refine (List.map_congr_left fun c hc => ?_).trans (List.map_id n)
  have h1 : c ≠ backslash := fun h => hb (h ▸ hc)
  have h2 : c ≠ slash := fun h => hs (h ▸ hc)
  simp [escapedChar, h1, h2]

/-- The name that is listed for a value in the location stands for that value. -/
theorem valueName_shown (hn : PlainName n) : valueName (shown n) = n := by
  unfold shown
  split
  · next h =>
    rw [h]
    exact if_pos (.inr rfl)
  · rw [valueName, if_neg]
    rintro (h | h)
    · exact hn.notDefault h
    · exact hn.notDot h

/-- A value in the location is found under its name. -/
theorem regQueryValueEx_of_mem (he : e ∈ entries t) (hroot : e.path = []) :
    t.regQueryValueEx [] e.name = some e.stored := by
  obtain ⟨k, hk, hpath, hv⟩ := mem_entries.mp he
  have hfind : t.find? [] = some k := Tree.find?_eq_some.mpr ⟨hk, by rw [hpath, hroot]⟩
  have hname : cstr e.name = e.name := cstr_eq_self ((t.valuesOk k hk).named _ hv)
  rw [Tree.regQueryValueEx, hfind, Option.bind_eq_bind, Option.bind_some, hname]
  cases hf : k.values.find? fun v => F.name v.1 = F.name e.name with
  | none =>
    have hnone := List.find?_eq_none.mp hf _ hv
    simp at hnone
  | some v =>
    have hv' := List.mem_of_find?_eq_some hf
    have heq : F.name v.1 = F.name e.name := by simpa using List.find?_some hf
    rw [List.inj_on_of_nodup_map (t.valuesOk k hk).unique hv' hv heq]
    rfl

/-- Nothing is found under a name with a slash. -/
theorem regQueryValueEx_slash (hplain : PlainNames t) (hn : slash ∈ n) (h0 : 0 ∉ n) :
    t.regQueryValueEx [] n = none := by
  rw [Tree.regQueryValueEx]
  cases hf : t.find? [] with
  | none => rfl
  | some k =>
    rw [Option.bind_eq_bind, Option.bind_some, cstr_eq_self h0, List.find?_eq_none.mpr]
    · rfl
    · intro v hv heq
      rw [decide_eq_true_eq] at heq
      exact (hplain.values k (Tree.find?_eq_some.mp hf).1 v hv).noSlash
        (F.mem_of_name_eq F.fold_slash heq hn)

end Lookups

section Agreement

variable {reg : Registry F} {e : Entry}

/-- The list has one name for each value, which ends in the value's own, and the
lookups find that value under it. -/
def Agrees (reg : Registry F) : Prop :=
  ∃ names, reg.allKeys = some names ∧ names.Nodup ∧ ∃ name : Entry → WString,
    names.Perm ((entries reg.d.tree).map name) ∧ ∀ e ∈ entries reg.d.tree,
      (∃ before, name e = before ++ shown e.name) ∧ reg.contains (name e) = some true ∧
        ∀ defaultValue, reg.value (name e) defaultValue = readData e.stored

/-- A name that is listed has no slash. -/
theorem slash_not_mem_listed (hplain : PlainNames t) (he : e ∈ entries t) : slash ∉ listed e := by
  obtain ⟨k, hk, hpath, hv⟩ := mem_entries.mp he
  have hne : slash ≠ backslash := by decide
  rw [listed, mem_joined hne]
  rintro ⟨n, hn, hmem⟩
  rcases List.mem_append.mp hn with hn | hn
  · exact (hplain.keys k hk n (hpath ▸ hn)).noSlash hmem
  · rw [List.mem_singleton.mp hn] at hmem
    exact not_mem_shown (by decide) (hplain.values k hk _ hv).noSlash hmem

/-- No listed name has a NUL. -/
theorem nul_not_mem_listed (he : e ∈ entries t) : 0 ∉ listed e := by
  obtain ⟨k, hk, hpath, hv⟩ := mem_entries.mp he
  have hne : (0 : WChar) ≠ backslash := by decide
  rw [listed, mem_joined hne]
  rintro ⟨n, hn, hmem⟩
  rcases List.mem_append.mp hn with hn | hn
  · exact (t.named k hk n (hpath ▸ hn)).2.1 hmem
  · rw [List.mem_singleton.mp hn] at hmem
    exact not_mem_shown (by decide) ((t.valuesOk k hk).named _ hv) hmem

/-- No listed name is empty. -/
theorem listed_ne_nil (e : Entry) : listed e ≠ [] := by
  rw [listed, joined_append_singleton]
  simp [shown_ne_nil]

/-- A value below the location is not found under the name that is listed. -/
theorem contains_listed_below (h : Readable reg.d) (hplain : PlainNames reg.d.tree)
    (he : e ∈ entries reg.d.tree) (hbelow : e.path ≠ []) :
    reg.contains (listed e) = some false := by
  have hslash := slash_not_mem_listed hplain he
  have hback : backslash ∈ listed e := by
    obtain ⟨ps, m, hpm⟩ : ∃ ps m, e.path = ps ++ [m] :=
      ⟨_, _, (List.dropLast_append_getLast hbelow).symm⟩
    rw [listed, joined_append_singleton, hpm, terminated_append_singleton]
    simp
  have hesc : slash ∈ escapedKey (listed e) :=
    List.mem_map.mpr ⟨backslash, hback, rfl⟩
  have hname : valueName (escapedKey (listed e)) = escapedKey (listed e) := by
    rw [valueName, if_neg]
    rintro (heq | heq) <;> rw [heq] at hesc
    · simp [slash, defaultName] at hesc
    · simp [slash, dot] at hesc
  have h0 : 0 ∉ escapedKey (listed e) := by
    rw [nul_mem_escapedKey]
    exact nul_not_mem_listed he
  rw [Registry.contains, actualKey_of_not_mem hslash (listed_ne_nil e), Option.bind_eq_bind,
    Option.bind_some, get_of_not_mem h hslash, hname, regQueryValueEx_slash hplain hesc h0]
  rfl

/-- Looking up the name that is listed for a value of the location reads it. -/
theorem get_listed (h : Readable reg.d) (hplain : PlainNames reg.d.tree)
    (he : e ∈ entries reg.d.tree) (hroot : e.path = []) :
    reg.d.get (listed e) = (readData e.stored).map some := by
  obtain ⟨k, hk, -, hv⟩ := mem_entries.mp he
  have hn := hplain.values k hk _ hv
  have hlisted : listed e = shown e.name := by
    rw [listed, hroot]
    simp
  have hslash := slash_not_mem_listed hplain he
  have hesc : escapedKey (listed e) = shown e.name := by
    rw [hlisted, escapedKey_eq_self (not_mem_shown (by decide) hn.noSlash)
      (not_mem_shown (by decide) hn.noBackslash)]
  rw [get_of_not_mem h hslash, hesc, valueName_shown hn]
  exact congrArg decoded (regQueryValueEx_of_mem he hroot)

/-- If the lookups find all values, there are none below the location. -/
theorem root_of_agrees (h : Readable reg.d) (hplain : PlainNames reg.d.tree) (hag : Agrees reg)
    (he : e ∈ entries reg.d.tree) : e.path = [] := by
  obtain ⟨names, hnames, -, hmem⟩ := allKeys_eq h
  obtain ⟨names', hnames', -, name, hperm, hall⟩ := hag
  rw [hnames, Option.some.injEq] at hnames'
  subst hnames'
  by_contra hbelow
  -- its name on the list is that of some value, which is found
  obtain ⟨e', he', heq⟩ := List.mem_map.mp (hperm.subset ((hmem _).mpr ⟨e, he, rfl⟩))
  have hfound := (hall e' he').2.1
  rw [heq, contains_listed_below h hplain he hbelow] at hfound
  cases hfound

/-- If the lookups find all values, they have the shape of their types. -/
theorem wellShaped_of_agrees (hag : Agrees reg) (he : e ∈ entries reg.d.tree) :
    WellShaped e.stored := by
  obtain ⟨names, -, -, name, -, hall⟩ := hag
  obtain ⟨-, hcontains, hvalue⟩ := hall e he
  rw [← readData_isSome, ← hvalue .empty]
  simp only [Registry.contains, Registry.value] at hcontains ⊢
  cases hk : actualKey (name e) with
  | none => simp [hk] at hcontains
  | some k =>
    cases hget : reg.d.get k with
    | none => simp [hk, hget] at hcontains
    | some r => simp [hget]

/-- Enumeration and lookup agree exactly when all values are in the location
itself and have the shape of their types. -/
theorem agrees_iff (h : Readable reg.d) (hplain : PlainNames reg.d.tree) :
    Agrees reg ↔ ∀ e ∈ entries reg.d.tree, e.path = [] ∧ WellShaped e.stored := by
  constructor
  · intro hag e he
    exact ⟨root_of_agrees h hplain hag he, wellShaped_of_agrees hag he⟩
  · intro hroot
    obtain ⟨names, hnames, hnodup, hmem⟩ := allKeys_eq h
    have hperm : names.Perm ((entries reg.d.tree).map listed) := by
      rw [List.perm_ext_iff_of_nodup hnodup (nodup_listed hplain)]
      intro x
      rw [hmem, List.mem_map]
      simp only [eq_comm]
    refine ⟨names, hnames, hnodup, listed, hperm, fun e he => ?_⟩
    obtain ⟨hpath, hshape⟩ := hroot e he
    obtain ⟨v, hv⟩ := Option.isSome_iff_exists.mp (readData_isSome.mpr hshape)
    have hkey := actualKey_of_not_mem (slash_not_mem_listed hplain he) (listed_ne_nil e)
    have hget := get_listed h hplain he hpath
    refine ⟨⟨terminated backslash e.path, joined_append_singleton _ _⟩, ?_, fun _ => ?_⟩
    · simp [Registry.contains, hkey, hget, hv]
    · simp [Registry.value, hkey, hget, hv]

/-- A location with one key, and a value in that. -/
def nestedValue : Registry exactNames where
  d :=
    { tree := ((Tree.root exactNames).addKeys [] [[0x61]] (by simp [NameOk, backslash])).regSetValueEx
        [[0x61]] [0x62] ⟨.dword, [1, 0, 0, 0]⟩
      regList := some ⟨true, false⟩
      deleteWriteHandleOnExit := false
      status := .noError }

/-- Its value can be read. -/
theorem nestedValue_readable : Readable nestedValue.d := ⟨⟨_, rfl, rfl⟩, by decide⟩

/-- Its names are plain. -/
theorem nestedValue_plain : PlainNames nestedValue.d.tree := ⟨by decide, by decide⟩

/-- A value below a group is not listed as it is read. -/
theorem agrees_iff_nestedValue : Agrees nestedValue ↔
    ∀ e ∈ entries nestedValue.d.tree, e.path = [] ∧ WellShaped e.stored :=
  agrees_iff nestedValue_readable nestedValue_plain

/-- The value in the key is listed under a name that it is not found under. -/
theorem not_agrees_nestedValue :
    ¬ ∀ (F : Caseless) (reg : Registry F), Readable reg.d → PlainNames reg.d.tree → Agrees reg := by
  intro h
  have hag := h exactNames nestedValue nestedValue_readable nestedValue_plain
  have he : (⟨[[0x61]], [0x62], ⟨.dword, [1, 0, 0, 0]⟩⟩ : Entry) ∈ entries nestedValue.d.tree := by
    decide
  exact absurd (root_of_agrees nestedValue_readable nestedValue_plain hag he) (by decide)

end Agreement

end KernelLib.RegistryNames
