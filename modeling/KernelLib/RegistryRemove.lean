import KernelLib.RegistryCalls

/-!
# What removing a key touches

`Registry::remove` deletes a value and a key with all below it. Keys are only
deleted below the handle that `deleteChildGroups` is given, and what is not
addressed stays as it was when the key comes through normalisation whole. Of
any other key the last name that is left, up to a NUL, is what goes.
-/

namespace KernelLib.RegistryRemove

open WideMemory SplitPaths RegistryValues RegistryKeys RegistryTree RegistryCalls

variable {F : Caseless} {t t' : Tree F} {p q : Path} {name : WString}

/-- All that is neither the value of a name in the key above a path nor at the
path or below it. -/
def outside (p : Path) (name : WString) (t : Tree F) : List Key :=
  (t.keys.filter fun k => ¬ F.path p <+: F.path k.path).map
    (Key.update F p.dropLast (Tree.deleteIn F name))

section Frame

/-- A value that is deleted is not outside. -/
theorem outside_regDeleteValue {n : WString} (hq : F.path q = F.path p.dropLast)
    (hn : F.name (cstr n) = F.name name) :
    outside p name (t.regDeleteValue q n) = outside p name t := by
  rw [outside, outside, Tree.regDeleteValue, Tree.withValues, List.filter_map, List.map_map]
  have hfilter : ((fun k : Key => decide (¬ F.path p <+: F.path k.path)) ∘
      Key.update F q (Tree.deleteIn F (cstr n))) =
        fun k => decide (¬ F.path p <+: F.path k.path) := by
    funext k
    simp
  rw [hfilter]
  refine List.map_congr_left fun k _ => ?_
  rw [Function.comp_apply, Key.update, Key.update_path, Key.update, hq, Key.update]
  split
  · simp [Tree.deleteIn, hn]
  · rfl

/-- A key below the path that is deleted is not outside. -/
theorem outside_eraseKey (hsub : t.subkeys q = []) (hq : F.path p <+: F.path q) :
    outside p name (t.eraseKey q hsub) = outside p name t := by
  rw [outside, outside, Tree.eraseKey, List.filter_filter]
  congr 1
  refine List.filter_congr fun k _ => ?_
  by_cases hk : F.path k.path = F.path q
  · simp [hk, hq]
  · simp [hk]

/-- What a call of `RegDeleteKey` deletes. -/
theorem regDeleteKey_eq_some {subKey : WString} (h : t.regDeleteKey q subKey = some t') :
    ∃ hsub, t' = t.eraseKey (q ++ components subKey) hsub := by
  simp only [Tree.regDeleteKey] at h
  split at h
  · next hd => exact ⟨hd.2, (Option.some.inj h).symm⟩
  · cases h

/-- A key at a path or below it is deleted. -/
def DeletesBelow (p : Path) (t t' : Tree F) : Prop :=
  ∃ q hsub, F.path p <+: F.path q ∧ t' = t.eraseKey q hsub

theorem deletesBelow {subKey : WString} (hq : F.path p <+: F.path q)
    (h : t.regDeleteKey q subKey = some t') : DeletesBelow p t t' := by
  obtain ⟨hsub, rfl⟩ := regDeleteKey_eq_some h
  refine ⟨_, hsub, ?_, rfl⟩
  rw [Caseless.path_append]
  exact hq.trans (List.prefix_append _ _)

/-- Deleting keys below a path keeps what is outside. -/
theorem outside_of_deletesBelow (h : Relation.ReflTransGen (DeletesBelow p) t t') :
    outside p name t' = outside p name t := by
  induction h with
  | refl => rfl
  | tail _ hstep ih =>
    obtain ⟨q, hsub, hq, rfl⟩ := hstep
    rw [outside_eraseKey hsub hq, ih]

/-- Deleting keys adds none. -/
theorem mem_of_deletesBelow (h : Relation.ReflTransGen (DeletesBelow p) t t') {k : Key}
    (hk : k ∈ t'.keys) : k ∈ t.keys := by
  induction h with
  | refl => exact hk
  | tail _ hstep ih =>
    obtain ⟨q, hsub, -, rfl⟩ := hstep
    exact ih (List.mem_filter.mp hk).1

end Frame

section Groups

/-- The names of the groups are those of the keys below. -/
theorem childGroups_ok {n : WString} (hn : n ∈ childKeysOrGroups t p .childGroups) : NameOk n := by
  obtain ⟨m, hm, rfl⟩ := List.mem_map.mp hn
  obtain ⟨k, hk, q, hpath, -⟩ := Tree.mem_subkeys.mp hm
  have hok : NameOk m := t.named k hk m (by rw [hpath]; simp)
  rwa [if_neg hok.1]

/-- The loop over groups returns and deletes below the path, if the call for the
groups below does. -/
theorem deleteLoop_spec {below : Tree F → Path → Option (Tree F)} {h : Path} {depth : ℕ}
    (hp : F.path p <+: F.path h)
    (hbelow : ∀ (t : Tree F) (c : Path), F.path p <+: F.path c → (t.find? c).isSome →
      (∀ k ∈ t.keys, k.path.length < c.length + depth) →
        ∃ t', below t c = some t' ∧ Relation.ReflTransGen (DeletesBelow p) t t')
    {groups : List WString} (hgroups : ∀ n ∈ groups, NameOk n) (t : Tree F)
    (hdepth : ∀ k ∈ t.keys, k.path.length < h.length + (depth + 1)) :
    ∃ t', deleteLoop below h t groups = some t' ∧
      Relation.ReflTransGen (DeletesBelow p) t t' := by
  induction groups generalizing t with
  | nil => exact ⟨t, rfl, .refl⟩
  | cons group groups ih =>
    have hgroups' := fun n hn => hgroups n (List.mem_cons_of_mem _ hn)
    cases hopen : openKey t h group with
    | none =>
      simp only [deleteLoop, hopen]
      exact ih hgroups' t hdepth
    | some c =>
      -- the handle of a group is one name deeper
      obtain ⟨hfound, rfl⟩ : (t.find? (h ++ components group)).isSome ∧
          h ++ components group = c := by
        simpa [openKey, Tree.regOpenKeyEx] using hopen
      have hlen : (h ++ components group).length = h.length + 1 := by
        rw [components_of_nameOk (hgroups group List.mem_cons_self), List.length_append]
        rfl
      have hc : F.path p <+: F.path (h ++ components group) := by
        rw [Caseless.path_append]
        exact hp.trans (List.prefix_append _ _)
      obtain ⟨t₁, ht₁, hdel₁⟩ := hbelow t _ hc hfound fun k hk => by
        have := hdepth k hk
        omega
      cases hdelete : t₁.regDeleteKey h group with
      | none =>
        refine ⟨t₁, ?_, hdel₁⟩
        simp only [deleteLoop, hopen, ht₁, hdelete]
      | some t₂ =>
        have hdel₂ := hdel₁.tail (deletesBelow hp hdelete)
        obtain ⟨t', ht', hdel'⟩ := ih hgroups' t₂ fun k hk =>
          hdepth k (mem_of_deletesBelow hdel₂ hk)
        refine ⟨t', ?_, hdel₂.trans hdel'⟩
        simp only [deleteLoop, hopen, ht₁, hdelete]
        exact ht'

/-- `deleteChildGroups` returns, and deletes below its handle only. -/
theorem deleteChildGroups_spec (depth : ℕ) (t : Tree F) (h : Path) (hp : F.path p <+: F.path h)
    (hfound : (t.find? h).isSome) (hdepth : ∀ k ∈ t.keys, k.path.length < h.length + depth) :
    ∃ t', deleteChildGroups depth t h = some t' ∧
      Relation.ReflTransGen (DeletesBelow p) t t' := by
  induction depth generalizing t h with
  | zero =>
    obtain ⟨k, hk, hpath⟩ := Tree.find?_isSome.mp hfound
    have hlen := congrArg List.length hpath
    rw [Caseless.length_path, Caseless.length_path] at hlen
    have := hdepth k hk
    omega
  | succ depth ih =>
    exact deleteLoop_spec hp ih (fun n hn => childGroups_ok hn) t hdepth

end Groups

section Keys

variable {key : WString} {ps : List WString} {n : WString}

/-- The names of an addressed path, when the key has no NUL. -/
theorem addressed_ok (h0 : 0 ∉ key) : ∀ n ∈ addressed key, NameOk n := by
  intro n hn
  obtain ⟨m, hm, rfl⟩ := List.mem_map.mp hn
  have hnul : (0 : WChar) ≠ slash := by decide
  obtain ⟨hne, hsep⟩ := mem_segments hm
  refine ⟨by simpa [escapedKey] using hne, ?_, backslash_not_mem_escapedKey hsep⟩
  rw [nul_mem_escapedKey]
  exact fun h => h0 ((exists_mem_segments hnul).mp ⟨m, hm, h⟩)

theorem nul_mem_addressed (h0 : 0 ∈ key) : ∃ n ∈ addressed key, 0 ∈ n := by
  have hnul : (0 : WChar) ≠ slash := by decide
  obtain ⟨m, hm, hmem⟩ := (exists_mem_segments hnul).mpr h0
  exact ⟨escapedKey m, List.mem_map_of_mem hm, nul_mem_escapedKey.mpr hmem⟩

/-- The name of the value that a key addresses. -/
def addressedName (key : WString) : WString := valueName ((addressed key).getLastD [])

theorem nul_not_mem_valueName (h : 0 ∉ n) : 0 ∉ valueName n := by
  unfold valueName
  split
  · exact List.not_mem_nil
  · exact h

theorem valueName_of_nul_mem (h : 0 ∈ n) : valueName n = n := by
  rw [valueName, if_neg]
  rintro (rfl | rfl)
  · simp [defaultName] at h
  · simp [dot] at h

/-- A key with some other character than slashes has a segment. -/
theorem segments_ne_nil (h : ∃ c ∈ key, c ≠ slash) : segments slash key ≠ [] := by
  obtain ⟨c, hc, hne⟩ := h
  obtain ⟨p, hp, -⟩ := (exists_mem_segments hne).mpr hc
  exact List.ne_nil_of_mem hp

end Keys

section Safe

variable {d : RegistryPrivate F} {uKey n : WString} {ps : List WString}

theorem eq_nil_of_writeHandle {w : Path} (h : d.writeHandle = some w) : w = [] := by
  unfold RegistryPrivate.writeHandle at h
  cases hreg : d.regList with
  | none => simp [hreg] at h
  | some key =>
    rw [hreg] at h
    dsimp only at h
    split at h
    · cases h
    · exact (Option.some.inj h).symm

theorem openKey_eq_some {subKey : WString} {handle : Path} (h : openKey t q subKey = some handle) :
    handle = q ++ components subKey ∧ (t.find? handle).isSome := by
  simp only [openKey, Tree.regOpenKeyEx] at h
  split at h
  · next hfound =>
    obtain rfl := Option.some.inj h
    exact ⟨rfl, hfound⟩
  · cases h

/-- Deleting the value keeps what is outside. -/
theorem outside_removeValue {rKey : WString} (hpath : components (keyPath rKey) = p.dropLast)
    (hname : cstr (keyName rKey) = name) :
    outside p name (removeValue t [] rKey) = outside p name t := by
  unfold removeValue
  cases hopen : openKey t [] (keyPath rKey) with
  | none => rfl
  | some handle =>
    obtain ⟨rfl, -⟩ := openKey_eq_some hopen
    exact outside_regDeleteValue (by rw [List.nil_append, hpath]) (by rw [hname])

/-- Deleting the key with all below it keeps what is outside. -/
theorem outside_removeKey {rKey : WString} (hpath : components rKey = p) (hne : rKey ≠ []) :
    ∃ t', removeKey t [] rKey = some t' ∧ outside p name t' = outside p name t := by
  unfold removeKey
  cases hopen : openKey t [] rKey with
  | none => exact ⟨t, rfl, rfl⟩
  | some handle =>
    obtain ⟨rfl, hfound⟩ := openKey_eq_some hopen
    rw [List.nil_append, hpath] at hfound ⊢
    obtain ⟨t', ht', hdel⟩ := deleteChildGroups_spec (height t + 1) t p
      (List.prefix_refl (F.path p)) hfound fun k hk => by
        have := length_le_height hk
        omega
    simp only [ht', Option.bind_eq_bind, Option.bind_some, if_neg hne]
    refine ⟨_, rfl, ?_⟩
    rw [← outside_of_deletesBelow hdel]
    cases hdelete : t'.regDeleteKey [] rKey with
    | none => rfl
    | some t'' =>
      obtain ⟨hsub, rfl⟩ := regDeleteKey_eq_some hdelete
      have hpre : F.path p <+: F.path (components rKey) := hpath ▸ List.prefix_refl _
      exact outside_eraseKey hsub hpre

/-- Removing a key of names keeps what is outside of its path. -/
theorem remove_keeps (hk : escapedKey uKey = joined backslash (ps ++ [n]))
    (hok : ∀ m ∈ ps ++ [n], NameOk m) :
    ∃ d', d.remove uKey = some d' ∧
      outside (ps ++ [n]) (valueName n) d'.tree = outside (ps ++ [n]) (valueName n) d.tree ∧
        d'.deleteWriteHandleOnExit = d.deleteWriteHandleOnExit := by
  have hn := hok n (by simp)
  have hpath : components (keyPath (escapedKey uKey)) = (ps ++ [n]).dropLast := by
    rw [hk, keyPath_joined hn.2.2, components_joined fun m hm => hok m (by simp [hm]),
      List.dropLast_concat]
  have hname : cstr (keyName (escapedKey uKey)) = valueName n := by
    rw [hk, keyName_joined hn.2.2, cstr_eq_self (nul_not_mem_valueName hn.2.1)]
  have hall : components (escapedKey uKey) = ps ++ [n] := by rw [hk, components_joined hok]
  have hne : escapedKey uKey ≠ [] := by
    rw [hk, joined_append_singleton]
    simp [hn.1]
  cases hw : d.writeHandle with
  | none =>
    exact ⟨{ d with status := .accessError }, by simp [RegistryPrivate.remove, hw], rfl, rfl⟩
  | some w =>
    obtain rfl := eq_nil_of_writeHandle hw
    obtain ⟨t', ht', hkeep⟩ := outside_removeKey (t := removeValue d.tree [] (escapedKey uKey))
      hall hne
    refine ⟨{ d with tree := t' }, by simp [RegistryPrivate.remove, hw, ht'], ?_, rfl⟩
    exact hkeep.trans (outside_removeValue hpath hname)

end Safe

section Deleted

variable {d d' : RegistryPrivate F} {uKey rKey m : WString}

/-- The value of a name in the key at a path, among some keys. -/
def findValue (F : Caseless) (keys : List Key) (q : Path) (m : WString) : Option Stored := do
  let k ← keys.find? fun k => F.path k.path = F.path q
  let v ← k.values.find? fun v => F.name v.1 = F.name (cstr m)
  return v.2

/-- What is looked for is found among what is kept. -/
theorem find?_filter_of_imp {α : Type*} {f g : α → Bool} {l : List α} (h : ∀ a, g a → f a) :
    (l.filter f).find? g = l.find? g := by
  rw [List.find?_filter]
  congr
  funext a
  by_cases hg : g a
  · simp [hg, h a hg]
  · simp [hg]

/-- A value that is not addressed is found outside. -/
theorem findValue_outside (hp : ¬ F.path p <+: F.path q)
    (hv : ¬ (F.path q = F.path p.dropLast ∧ F.name (cstr m) = F.name name)) :
    findValue F (outside p name t) q m = t.regQueryValueEx q m := by
  have hpred : ((fun k : Key => decide (F.path k.path = F.path q)) ∘
      Key.update F p.dropLast (Tree.deleteIn F name)) =
      fun k => decide (F.path k.path = F.path q) := by
    funext k
    simp
  rw [findValue, outside, List.find?_map, hpred, find?_filter_of_imp, Tree.regQueryValueEx]
  · cases hf : t.find? q with
    | none =>
      rw [Tree.find?] at hf
      rw [hf]
      rfl
    | some k =>
      have hk := (Tree.find?_eq_some.mp hf).2
      rw [Tree.find?] at hf
      rw [hf]
      simp only [Option.map_some, Option.bind_eq_bind, Option.bind_some, Key.update]
      split
      · next hpath =>
        rw [Tree.deleteIn, find?_filter_of_imp]
        intro v hm
        rw [decide_eq_true_eq] at hm ⊢
        exact fun hn => hv ⟨hk ▸ hpath, hm.symm.trans hn⟩
      · rfl
  · intro k hk
    rw [decide_eq_true_eq] at hk ⊢
    rwa [hk]

/-- A value that is deleted is not there. -/
theorem regQueryValueEx_regDeleteValue : (t.regDeleteValue q m).regQueryValueEx q m = none := by
  rw [Tree.regQueryValueEx, Tree.regDeleteValue, Tree.find?_withValues]
  cases hf : t.find? q with
  | none => rfl
  | some k =>
    have hk := (Tree.find?_eq_some.mp hf).2
    rw [Option.map_some, Key.update, if_pos hk, Option.bind_eq_bind, Option.bind_some,
      Tree.deleteIn, List.find?_filter, List.find?_eq_none.mpr]
    · rfl
    · intro v _
      simp

/-- Deleting keys brings no value. -/
theorem regQueryValueEx_eraseKey (hsub : t.subkeys p = []) (h : t.regQueryValueEx q m = none) :
    (t.eraseKey p hsub).regQueryValueEx q m = none := by
  rw [Tree.regQueryValueEx] at h ⊢
  cases hf : (t.eraseKey p hsub).find? q with
  | none => rfl
  | some k =>
    obtain ⟨hk, hpath⟩ := Tree.find?_eq_some.mp hf
    rw [Tree.find?_eq_some.mpr ⟨(List.mem_filter.mp hk).1, hpath⟩] at h
    exact h

theorem regQueryValueEx_of_deletesBelow (hdel : Relation.ReflTransGen (DeletesBelow p) t t')
    (h : t.regQueryValueEx q m = none) : t'.regQueryValueEx q m = none := by
  induction hdel with
  | refl => exact h
  | tail _ hstep ih =>
    obtain ⟨q, hsub, -, rfl⟩ := hstep
    exact regQueryValueEx_eraseKey hsub ih

/-- The value that removing starts with is not there any more. -/
theorem regQueryValueEx_removeValue :
    (removeValue t [] rKey).regQueryValueEx (components (keyPath rKey)) (keyName rKey) = none := by
  unfold removeValue
  cases hopen : openKey t [] (keyPath rKey) with
  | none =>
    have hf : t.find? (components (keyPath rKey)) = none := by
      simpa [openKey, Tree.regOpenKeyEx] using hopen
    rw [Tree.regQueryValueEx, hf]
    rfl
  | some handle =>
    obtain ⟨rfl, -⟩ := openKey_eq_some hopen
    exact regQueryValueEx_regDeleteValue

/-- Deleting a key brings no value. -/
theorem regQueryValueEx_removeKey (hne : rKey ≠ []) (hremove : removeKey t [] rKey = some t')
    (h : t.regQueryValueEx q m = none) : t'.regQueryValueEx q m = none := by
  unfold removeKey at hremove
  cases hopen : openKey t [] rKey with
  | none =>
    rw [hopen] at hremove
    rwa [← Option.some.inj hremove]
  | some handle =>
    obtain ⟨rfl, hfound⟩ := openKey_eq_some hopen
    obtain ⟨t₁, ht₁, hdel⟩ := deleteChildGroups_spec (height t + 1) t _
      (List.prefix_refl (F.path ([] ++ components rKey))) hfound fun k hk => by
        have := length_le_height hk
        omega
    simp only [hopen, ht₁, Option.bind_eq_bind, Option.bind_some, if_neg hne] at hremove
    obtain rfl := Option.some.inj hremove
    have hnone := regQueryValueEx_of_deletesBelow hdel h
    cases hdelete : t₁.regDeleteKey [] rKey with
    | none => exact hnone
    | some t₂ =>
      obtain ⟨hsub, rfl⟩ := regDeleteKey_eq_some hdelete
      exact regQueryValueEx_eraseKey hsub hnone

/-- Removing deletes the value at the last name of its key, as it is passed. -/
theorem regQueryValueEx_remove (hw : d.writeHandle = some []) (hne : escapedKey uKey ≠ [])
    (hremove : d.remove uKey = some d') :
    d'.tree.regQueryValueEx (components (keyPath (escapedKey uKey)))
      (keyName (escapedKey uKey)) = none := by
  simp only [RegistryPrivate.remove, hw, Option.bind_eq_bind] at hremove
  obtain ⟨t', ht', hd'⟩ := Option.bind_eq_some_iff.mp hremove
  rw [← Option.some.inj hd']
  exact regQueryValueEx_removeKey hne ht' regQueryValueEx_removeValue

/-- A tree that holds a value in a key at a path. -/
def treeWith (F : Caseless) (ns : Path) (hns : ∀ n ∈ ns, NameOk n) (m : WString) : Tree F :=
  ((Tree.root F).addKeys [] ns hns).regSetValueEx ns m ⟨.none, []⟩

theorem regQueryValueEx_treeWith {ns : Path} (hns : ∀ n ∈ ns, NameOk n) :
    (treeWith F ns hns m).regQueryValueEx ns m = some ⟨.none, []⟩ := by
  refine Tree.regQueryValueEx_regSetValueEx ?_
  have hroot : ((Tree.root F).find? []).isSome := Tree.root_find?.mpr rfl
  simpa using Tree.addKeys_find? hns hroot

end Deleted

section Only

variable {key : WString}

/-- Removing a key returns, leaves what it does not address and does not clear
the location. -/
def RemovesOnly (F : Caseless) (key : WString) : Prop :=
  ∀ reg : Registry F, ∃ reg', reg.remove key = some reg' ∧
    outside (addressed key) (addressedName key) reg'.d.tree =
      outside (addressed key) (addressedName key) reg.d.tree ∧
        reg'.d.deleteWriteHandleOnExit = reg.d.deleteWriteHandleOnExit

/-- A key that normalisation leaves whole removes what it addresses. -/
theorem removesOnly (hkey : ∃ c ∈ key, c ≠ slash) (h0 : 0 ∉ key) (hgap : NoGap slash key) :
    RemovesOnly F key := by
  intro reg
  obtain ⟨ps, n, hnames⟩ : ∃ ps n, addressed key = ps ++ [n] := by
    have hne : addressed key ≠ [] := by simpa [addressed] using segments_ne_nil hkey
    exact ⟨_, _, (List.dropLast_append_getLast hne).symm⟩
  have hk : escapedKey (joined slash (segments slash key)) = joined backslash (ps ++ [n]) := by
    rw [escapedKey_joined, ← hnames]
    rfl
  have hne : joined slash (segments slash key) ≠ [] := by
    intro h
    rw [h, joined_append_singleton] at hk
    have hn := (addressed_ok h0 n (by rw [hnames]; simp)).1
    simp [escapedKey, hn] at hk
  obtain ⟨d', hd', hkeep, hflag⟩ := remove_keeps (d := reg.d) hk (hnames ▸ addressed_ok h0)
  refine ⟨⟨d'⟩, ?_, ?_, hflag⟩
  · simp [Registry.remove, normalizedKey_eq, leading_eq_segments_iff.mpr hgap, hne, groupPrefix, hd']
  · rwa [hnames, addressedName, hnames, List.getLastD_concat]

/-- Nothing is left of a key that begins with a slash: all is cleared. -/
theorem leading_ne_nil (h : RemovesOnly F key) : leading slash key ≠ [] := by
  intro hlead
  obtain ⟨reg', hremove, -, hflag⟩ := h ⟨⟨Tree.root F, none, false, .noError⟩⟩
  have hclear : reg'.d.deleteWriteHandleOnExit = true := by
    simp [Registry.remove, normalizedKey_eq, hlead, group, groupPrefix, RegistryPrivate.clear,
      RegistryPrivate.remove, RegistryPrivate.writeHandle] at hremove
    rw [← hremove]
  rw [hclear] at hflag
  cases hflag

/-- The value that goes is the one that the key addresses, or below it. -/
theorem addressed_of_removesOnly {ps : List WString} {n : WString} (h : RemovesOnly F key)
    (hlead : leading slash key = ps ++ [n]) :
    F.path (addressed key) <+: F.path (components (joined backslash (ps.map escapedKey))) ∨
      F.path (components (joined backslash (ps.map escapedKey))) =
          F.path (addressed key).dropLast ∧
        F.name (cstr (valueName (escapedKey n))) = F.name (addressedName key) := by
  have hmem : n ∈ leading slash key := by
    rw [hlead]
    simp
  have hn := mem_leading hmem
  have hrKey : escapedKey (joined slash (leading slash key)) =
      joined backslash (ps.map escapedKey ++ [escapedKey n]) := by
    rw [hlead, escapedKey_joined, List.map_append]
    rfl
  have hpath : keyPath (escapedKey (joined slash (leading slash key))) =
      joined backslash (ps.map escapedKey) := by
    rw [hrKey, keyPath_joined (backslash_not_mem_escapedKey hn.2)]
  have hname : keyName (escapedKey (joined slash (leading slash key))) =
      valueName (escapedKey n) := by
    rw [hrKey, keyName_joined (backslash_not_mem_escapedKey hn.2)]
  have hne : joined slash (leading slash key) ≠ [] := by
    rw [hlead, joined_append_singleton]
    simp [hn.1]
  have hne' : escapedKey (joined slash (leading slash key)) ≠ [] := by
    simpa [escapedKey] using hne
  -- a tree that holds just this value
  obtain ⟨q, hq⟩ : ∃ q, q = components (joined backslash (ps.map escapedKey)) := ⟨_, rfl⟩
  obtain ⟨t, ht⟩ : ∃ t : Tree F, t.regQueryValueEx q (valueName (escapedKey n)) = some ⟨.none, []⟩ :=
    ⟨_, regQueryValueEx_treeWith fun m hm => nameOk_of_mem_components (hq ▸ hm)⟩
  obtain ⟨reg', hremove, hkeep, -⟩ := h ⟨⟨t, some ⟨true, false⟩, false, .noError⟩⟩
  have hgone : reg'.d.tree.regQueryValueEx q (valueName (escapedKey n)) = none := by
    simp only [Registry.remove, normalizedKey_eq, Option.bind_eq_bind, Option.bind_some, if_neg hne,
      groupPrefix, List.nil_append] at hremove
    obtain ⟨d', hd', hreg'⟩ := Option.bind_eq_some_iff.mp hremove
    rw [← Option.some.inj hreg', hq, ← hpath, ← hname]
    exact regQueryValueEx_remove rfl hne' hd'
  by_contra hnot
  rw [not_or, ← hq] at hnot
  rw [← findValue_outside hnot.1 hnot.2, hkeep, findValue_outside hnot.1 hnot.2, ht] at hgone
  cases hgone

/-- A name without NULs is not the same as one with a NUL. -/
theorem nul_not_mem_of_mem_path {ps : Path} {m : WString} (hps : ∀ n ∈ ps, NameOk n)
    (hm : F.name m ∈ F.path ps) : 0 ∉ m := by
  intro h0
  obtain ⟨n, hn, heq⟩ := List.mem_map.mp hm
  exact (hps n hn).2.1 (F.mem_of_name_eq F.fold_nul heq h0)

/-- What is passed of a key with a NUL is not what it addresses. -/
theorem nul_not_mem {ps : Path} {n : WString} (hps : ∀ n ∈ ps, NameOk n)
    (h : F.path (addressed key) <+: F.path ps ∨ F.path ps = F.path (addressed key).dropLast ∧
      F.name (cstr n) = F.name (addressedName key)) : 0 ∉ key := by
  intro h0
  obtain ⟨m, hm, hm0⟩ := nul_mem_addressed h0
  rcases h with hpre | ⟨hpath, hname⟩
  · exact nul_not_mem_of_mem_path hps (hpre.subset (List.mem_map_of_mem hm)) hm0
  · have hne := List.ne_nil_of_mem hm
    rw [← List.dropLast_append_getLast hne, List.mem_append, List.mem_singleton] at hm
    rcases hm with hm | rfl
    · refine nul_not_mem_of_mem_path (F := F) hps ?_ hm0
      rw [hpath]
      exact List.mem_map_of_mem hm
    · have hlast : addressedName key = (addressed key).getLast hne := by
        rw [addressedName, List.getLastD_eq_getLast?, List.getLast?_eq_some_getLast hne,
          Option.getD_some, valueName_of_nul_mem hm0]
      exact nul_not_mem_cstr n (F.mem_of_name_eq F.fold_nul hname (hlast ▸ hm0))

/-- Removing a key touches only what it names exactly when it has no NUL and no
empty name before another name. -/
theorem removesOnly_iff (F : Caseless) (hkey : ∃ c ∈ key, c ≠ slash) :
    RemovesOnly F key ↔ 0 ∉ key ∧ NoGap slash key := by
  constructor
  · intro h
    obtain ⟨ps, n, hlead⟩ : ∃ ps n, leading slash key = ps ++ [n] :=
      ⟨_, _, (List.dropLast_append_getLast (leading_ne_nil h)).symm⟩
    have haddr := addressed_of_removesOnly h hlead
    have h0 := nul_not_mem (fun _ hm => nameOk_of_mem_components hm) haddr
    have hpre : leading slash key <+: segments slash key := leading_prefix
    have hps : ∀ m ∈ ps.map escapedKey, NameOk m := by
      intro m hm
      obtain ⟨p, hp, rfl⟩ := List.mem_map.mp hm
      exact addressed_ok h0 _ (List.mem_map_of_mem (hpre.subset (by rw [hlead]; simp [hp])))
    rw [components_joined hps] at haddr
    have hlen : (segments slash key).length ≤ (leading slash key).length := by
      have hlead' := congrArg List.length hlead
      rw [List.length_append, List.length_singleton] at hlead'
      rcases haddr with haddr | ⟨haddr, -⟩
      · have hle := haddr.length_le
        simp only [Caseless.length_path, addressed, List.length_map] at hle
        omega
      · have heq := congrArg List.length haddr
        simp only [Caseless.length_path, addressed, List.length_map, List.length_dropLast] at heq
        omega
    exact ⟨h0, leading_eq_segments_iff.mp (hpre.eq_of_length_le hlen)⟩
  · rintro ⟨h0, hgap⟩
    exact removesOnly hkey h0 hgap

theorem removesOnly_iff_letterA : RemovesOnly exactNames [0x61] ↔
    0 ∉ ([0x61] : WString) ∧ NoGap slash ([0x61] : WString) :=
  removesOnly_iff _ ⟨0x61, by decide, by decide⟩

/-- A location that is open, with a key and a value of its own. -/
def openedLocation : Registry exactNames :=
  ⟨⟨((Tree.root exactNames).addKeys [] [[0x62]] (by simp [NameOk, backslash])).regSetValueEx []
    [0x63] ⟨.dword, [1]⟩, some ⟨true, false⟩, false, .noError⟩⟩

/-- A slash in front of a name clears the location: the other key and the value are gone. -/
theorem not_removesOnly_slashA :
    (∃ reg', openedLocation.remove [slash, 0x61] = some reg' ∧
      outside (addressed [slash, 0x61]) (addressedName [slash, 0x61]) reg'.d.tree ≠
        outside (addressed [slash, 0x61]) (addressedName [slash, 0x61]) openedLocation.d.tree) ∧
      ¬ ∀ (F : Caseless) (key : WString), (∃ c ∈ key, c ≠ slash) → RemovesOnly F key := by
  have hcleared : ∃ reg', openedLocation.remove [slash, 0x61] = some reg' ∧
      outside (addressed [slash, 0x61]) (addressedName [slash, 0x61]) reg'.d.tree ≠
        outside (addressed [slash, 0x61]) (addressedName [slash, 0x61]) openedLocation.d.tree := by
    refine ⟨_, rfl, fun h => ?_⟩
    exact absurd (congrArg List.length h) (by decide +kernel)
  refine ⟨hcleared, fun h => ?_⟩
  obtain ⟨reg', hremove, hgone⟩ := hcleared
  obtain ⟨reg'', hremove', hsame, -⟩ :=
    h exactNames [slash, 0x61] ⟨0x61, by decide, by decide⟩ openedLocation
  obtain rfl := Option.some.inj (hremove.symm.trans hremove')
  exact hgone hsame

end Only

end KernelLib.RegistryRemove
