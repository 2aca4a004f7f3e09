import KernelLib.RegistryHandles

/-!
# What a registry object owns

Over the life of a registry object each handle is closed once and used before
that only, whatever the system answers. Between the calls the handle of the
location is all that is open. Nothing is changed through a handle that was
opened to read, and a life that only reads creates its location at most.
-/

namespace KernelLib.RegistryHandles

open HandleLedger ScriptRecursion RegistryValues RegistryKeys RegistryPaths
open RegistryTree (cstr)
open RegistryCalls (ChildSpec NameSet mergeKeySets Status groupPrefix group)

section Books

variable {q : Call × Answer → Bool} {L : List ℕ} {S : List (Call × Option ℕ)} {n : ℕ} {h : Handle}
  {parent : Handle} {sub : WString} {wow64 : Bool} {loc : Option Location}

/-- The handle to be closed. -/
def Handle.ids (h : Handle) : List ℕ :=
  match h.base with
  | .predefined _ => []
  | .opened k => [k]

/-- The handle to be closed, if there is one. -/
def held (o : Option Handle) : List ℕ := o.elim [] Handle.ids

@[simp] theorem held_none : held none = [] := rfl

/-- A handle that is there is held. -/
@[simp] theorem held_some (h : Handle) : held (some h) = h.ids := rfl

/-- A call that changes keys or values. -/
def Api.changes : Api → Bool
  | .RegCreateKeyEx _ _ | .RegDeleteValue _ | .RegDeleteKey _ | .RegSetValueEx _ _ => true
  | _ => false

/-- A call that creates a location. -/
def Call.creates (c : Call) (l : Location) : Bool :=
  match c.api with
  | .RegCreateKeyEx _ subKey => subKey = cstr l.key && c.handle = ⟨.predefined l.root, true⟩
  | _ => false

/-- A call that changes nothing, or creates the location. -/
def Call.harmless (loc : Option Location) (c : Call) : Bool := !c.api.changes || loc.any c.creates

/-- Harmless calls are not counted. -/
def Tolerates (q : Call × Answer → Bool) (loc : Option Location) : Prop :=
  ∀ c r, c.harmless loc = true → q (c, r) = false

/-- Only a handle to write with creates something. -/
theorem Call.write_of_creates {c : Call} {l : Location} (h : c.creates l = true) :
    c.handle.write = true := by
  unfold Call.creates at h
  split at h
  · rw [Bool.and_eq_true, decide_eq_true_iff, decide_eq_true_iff] at h
    rw [h.2]
  · cases h

/-- A call that only reads is tolerated. -/
theorem Tolerates.reads (hq : Tolerates q loc) {api : Api} (ha : api.changes = false) (r : Answer) :
    q (⟨api, h⟩, r) = false :=
  hq _ r (by simp [Call.harmless, ha])

/-- A call through an open handle leaves the books. -/
theorem call_books {api : Api} (hh : h.ids ⊆ L) (hq : ∀ r, q (⟨api, h⟩, r) = false) :
    Triple (Books q L S n) (h.call api) fun _ => Books q L S n := by
  obtain ⟨root | k, write⟩ := h
  · exact triple_ask_books hq
  · exact triple_askOn_books (hh List.mem_cons_self) hq

/-- A new handle is open, to read or to write. -/
theorem newHandle_books {write : Bool} :
    Triple (Books q L S n) (newHandle write) fun h l =>
      h.write = write ∧ Books q (h.ids ++ L) S n l :=
  triple_acquire.bind fun _ => triple_pure fun _ hl => ⟨rfl, hl⟩

/-- `closeKey` closes the handles of a key. -/
theorem closeKey_books : Triple (Books q (h.ids ++ L) S n) (closeKey h) fun _ => Books q L S n := by
  obtain ⟨root | k, write⟩ := h
  · exact triple_pure fun _ hl => hl
  · exact triple_release_last

/-- What is opened is to be closed, and is as it was asked for. -/
def Opens (q : Call × Answer → Bool) (L : List ℕ) (S : List (Call × Option ℕ)) (n : ℕ)
    (write : Bool) (o : Option Handle) (l : Ledger Call Answer) : Prop :=
  (∀ h ∈ o, h.write = write) ∧ Books q (held o ++ L) S n l

/-- `openKey` opens one key or none. -/
theorem openKey_books {perms : Perms} (hq : Tolerates q loc) (hh : parent.ids ⊆ L) :
    Triple (Books q L S n) (openKey parent perms sub) (Opens q L S n perms.write) := by
  have hnone : Triple (Books q L S n) (pure none : Calls (Option Handle))
      (Opens q L S n perms.write) := triple_pure fun l hl => ⟨nofun, hl⟩
  have hnew : Triple (Books q L S n) (some <$> newHandle perms.write) (Opens q L S n perms.write) :=
    newHandle_books.bind fun h => triple_pure fun l hl => ⟨by simpa using hl.1, hl.2⟩
  refine (call_books hh (hq.reads rfl)).bind fun res => ?_
  split_ifs
  · exact hnone
  · split
    · exact triple_pure fun l hl => ⟨by simp, hl⟩
    · exact hnew

/-- So does `createOrOpenKey`, which may create the key. -/
theorem createOrOpenKey_books {perms : Perms} (hq : Tolerates q loc) (hh : parent.ids ⊆ L)
    (hc : ∀ perms subKey r, subKey = cstr sub →
      q (⟨.RegCreateKeyEx perms subKey, parent⟩, r) = false) :
    Triple (Books q L S n) (createOrOpenKey parent perms sub) (Opens q L S n perms.write) := by
  refine (openKey_books hq hh).bind fun o => ?_
  cases o with
  | some h => exact triple_pure fun l hl => hl
  | none =>
    refine triple_of fun _ => (call_books hh fun r => hc _ _ r rfl).bind fun res => ?_
    split_ifs
    · exact newHandle_books.bind fun h => triple_pure fun l hl => ⟨by simpa using hl.1, hl.2⟩
    · exact triple_pure fun l hl => ⟨nofun, hl⟩

/-- So does the attempt to write and then to read. -/
theorem createOrOpenAny_books (hq : Tolerates q loc) (hh : parent.ids ⊆ L)
    (hc : ∀ perms subKey r, subKey = cstr sub →
      q (⟨.RegCreateKeyEx perms subKey, parent⟩, r) = false) :
    Triple (Books q L S n) (createOrOpenAny parent sub wow64)
      fun o l => Books q (held o ++ L) S n l := by
  refine (createOrOpenKey_books hq hh hc).bind fun o => triple_of fun _ => ?_
  cases o with
  | some h => exact triple_pure fun l hl => hl
  | none => exact (createOrOpenKey_books hq hh hc).post fun o l hl => hl.2

/-- A list of the children opens nothing that it does not close. -/
theorem childKeysOrGroups_books {spec : ChildSpec} (hq : Tolerates q loc) (hh : h.ids ⊆ L) :
    Triple (Books q L S n) (childKeysOrGroups h spec) fun _ => Books q L S n := by
  have hitem : ∀ result i, Triple (Books q L S n) (childItem h spec result i)
      fun _ => Books q L S n := fun result i => by
    refine (call_books hh (hq.reads ?_)).bind fun res => ?_
    · split_ifs <;> rfl
    · split_ifs <;> exact triple_pure fun l hl => hl
  refine (call_books hh (hq.reads rfl)).bind fun res => ?_
  split_ifs
  · exact triple_pure fun l hl => hl
  all_goals exact triple_foldlM (P := fun _ => Books q L S n) (fun result i _ => hitem result i) []

/-- Nor does the list of all keys below. -/
theorem allKeys_books {result : NameSet} (hq : Tolerates q loc) (hh : h.ids ⊆ L) :
    Triple (Books q L S n) (allKeys h sub result wow64) fun _ => Books q L S n := by
  refine triple_recur (P := fun _ _ => Books q L S n) (Q := fun _ _ _ => Books q L S n)
    (fun below hbelow _ ⟨rSubKey, result⟩ => ?_) () (sub, result)
  refine (openKey_books hq hh).bind fun o => triple_of fun _ => ?_
  cases o with
  | none => exact triple_pure fun l hl => hl
  | some handle =>
    have hhandle : handle.ids ⊆ handle.ids ++ L := List.subset_append_left _ _
    refine (childKeysOrGroups_books hq hhandle).bind fun childKeys => ?_
    refine (childKeysOrGroups_books hq hhandle).bind fun childGroups => ?_
    refine closeKey_books.bind fun _ => ?_
    exact triple_foldlM (P := fun _ => Books q L S n) (fun result group _ => hbelow () _) _

/-- A loop that deletes groups closes each of them. -/
theorem deleteLoop_books {below : Handle → Calls Unit} {childGroups : List WString}
    (hq : Tolerates q loc) (hh : h.ids ⊆ L)
    (hd : ∀ subKey r, q (⟨.RegDeleteKey subKey, h⟩, r) = false)
    (hbelow : ∀ child : Handle, child.write = true → ∀ L, child.ids ⊆ L →
      Triple (Books q L S n) (below child) fun _ => Books q L S n) :
    Triple (Books q L S n) (deleteLoop h wow64 below childGroups) fun _ => Books q L S n := by
  induction childGroups with
  | nil => exact triple_pure fun l hl => hl
  | cons group childGroups ih =>
    refine (openKey_books hq hh).bind fun o => triple_of fun hwrite => ?_
    cases o with
    | none => exact ih
    | some child =>
      refine (hbelow child (hwrite child rfl) _ (List.subset_append_left _ _)).bind fun _ => ?_
      refine closeKey_books.bind fun _ => (call_books hh (hd _)).bind fun res => ?_
      split_ifs
      · exact triple_pure fun l hl => hl
      · exact ih

/-- A handle to write may delete keys. -/
theorem deleteChildGroups_books (hq : Tolerates q loc)
    (hd : ∀ h : Handle, h.write = true → ∀ subKey r, q (⟨.RegDeleteKey subKey, h⟩, r) = false)
    (hh : h.ids ⊆ L) (hw : h.write = true) :
    Triple (Books q L S n) (deleteChildGroups wow64 h) fun _ => Books q L S n := by
  refine (triple_recur (P := fun L (h : Handle) l => (h.write = true ∧ h.ids ⊆ L) ∧ Books q L S n l)
    (Q := fun L _ _ => Books q L S n) (fun below hbelow L h => ?_) L h).pre
      fun l hl => ⟨⟨hw, hh⟩, hl⟩
  refine triple_of fun ⟨hw, hh⟩ => (childKeysOrGroups_books hq hh).bind fun childGroups => ?_
  exact deleteLoop_books hq hh (hd h hw) fun child hwrite L hchild =>
    (hbelow L child).pre fun l hl => ⟨⟨hwrite, hchild⟩, hl⟩

/-- Reading a value closes the key of it. -/
theorem readKey_books (hq : Tolerates q loc) (hh : h.ids ⊆ L) :
    Triple (Books q L S n) (RegistryPrivate.readKey h sub wow64) fun _ => Books q L S n := by
  refine (openKey_books hq hh).bind fun o => triple_of fun _ => ?_
  cases o with
  | none => exact triple_pure fun l hl => hl
  | some handle =>
    have hclose : ∀ {α : Type} (a : α), Triple (Books q (handle.ids ++ L) S n)
        (closeKey handle >>= fun _ => pure a : Calls α) fun _ => Books q L S n := fun a =>
      closeKey_books.bind fun _ => triple_pure fun l hl => hl
    have hhandle : handle.ids ⊆ handle.ids ++ L := List.subset_append_left _ _
    refine (call_books hhandle (hq.reads rfl)).bind fun res => ?_
    split_ifs
    · exact hclose _
    · refine (call_books hhandle (hq.reads rfl)).bind fun data => ?_
      split_ifs
      · exact hclose _
      · exact triple_given.bind fun v => hclose _

end Books

section Methods

variable {q : Call × Answer → Bool} {S : List (Call × Option ℕ)} {n : ℕ} {d : RegistryPrivate}
  {loc : Option Location}

/-- What the location was constructed with. -/
def RegistryKey.location (key : RegistryKey) : Location := ⟨key.parentHandle, key.key⟩

/-- A location, whose handle is for what it says, and is the one that is open. -/
def RegistryKey.Owned (q : Call × Answer → Bool) (S : List (Call × Option ℕ)) (n : ℕ)
    (l : Location) (key : RegistryKey) (b : Ledger Call Answer) : Prop :=
  (key.location = l ∧ ∀ h ∈ key.handle, h.write = !key.readOnly) ∧ Books q (held key.handle) S n b

/-- A key gets its handle once, and holds it. -/
theorem RegistryKey.getHandle_owned (key : RegistryKey) {l : Location} (hq : Tolerates q (some l)) :
    Triple (key.Owned q S n l) key.getHandle (RegistryKey.Owned q S n l) := by
  obtain ⟨root, handle, name, readOnly, wow64⟩ := key
  cases handle with
  | some h => exact triple_pure fun l hl => hl
  | none =>
    have hroot : ∀ L, (Handle.mk (.predefined root) true).ids ⊆ L := fun L => List.nil_subset L
    refine triple_of fun ⟨hl, _⟩ => ?_
    cases readOnly with
    | true =>
      refine (openKey_books hq (hroot _)).bind fun o => triple_pure fun b hb => ⟨⟨hl, hb.1⟩, ?_⟩
      simpa using hb.2
    | false =>
      have hc : ∀ perms subKey r, subKey = cstr name →
          q (⟨.RegCreateKeyEx perms subKey, ⟨.predefined root, true⟩⟩, r) = false := by
        rintro perms _ r rfl
        refine hq _ r ?_
        simp [Call.harmless, Call.creates, ← hl, RegistryKey.location]
      refine (createOrOpenAny_books hq (hroot _) hc).bind fun o => ?_
      cases o with
      | none => exact triple_pure fun b hb => ⟨⟨hl, nofun⟩, hb⟩
      | some h => exact triple_pure fun b hb => ⟨⟨hl, by simp⟩, by simpa using hb⟩

namespace RegistryPrivate

/-- `m_handle` of the location. -/
def handle (d : RegistryPrivate) : Option Handle := d.regList.bind (·.handle)

/-- The location, whose handle is for what it says. -/
structure Proper (loc : Option Location) (d : RegistryPrivate) : Prop where
  location : d.regList.map RegistryKey.location = loc
  write : ∀ key ∈ d.regList, ∀ h ∈ key.handle, h.write = !key.readOnly

/-- The handle of the location is the one that is open. -/
def Owned (q : Call × Answer → Bool) (S : List (Call × Option ℕ)) (n : ℕ) (loc : Option Location)
    (d : RegistryPrivate) (l : Ledger Call Answer) : Prop :=
  d.Proper loc ∧ Books q (held d.handle) S n l

/-- What holds of the location does not depend on the rest. -/
theorem Proper.congr {d' : RegistryPrivate} (h : d.Proper loc) (hr : d'.regList = d.regList) :
    d'.Proper loc :=
  ⟨by rw [hr]; exact h.location, by rw [hr]; exact h.write⟩

/-- Nor does what is held. -/
theorem Owned.congr {d' : RegistryPrivate} {l : Ledger Call Answer} (h : d.Owned q S n loc l)
    (hr : d'.regList = d.regList) : d'.Owned q S n loc l :=
  ⟨h.1.congr hr, by rw [handle, hr]; exact h.2⟩

/-- The object holds the handle of its location, if it got one. -/
theorem getHandle_owned (hq : Tolerates q loc) :
    Triple (d.Owned q S n loc) d.getHandle fun x l => x.2 = x.1.handle ∧ x.1.Owned q S n loc l := by
  obtain ⟨regList, exit, status, wow64⟩ := d
  cases regList with
  | none => exact triple_pure fun l hl => ⟨rfl, hl⟩
  | some key =>
    refine triple_of fun hp => ?_
    obtain rfl := hp.location
    refine ((RegistryKey.getHandle_owned key hq).bind fun key => ?_).pre fun l hl =>
      ⟨⟨rfl, hp.write key rfl⟩, hl⟩
    refine triple_pure fun l hl => ⟨rfl, ⟨congrArg some hl.1.1, ?_⟩, hl.2⟩
    rintro _ ⟨⟩
    exact hl.1.2

/-- The write handle is the one of the location, and was opened to write. -/
theorem writeHandle_owned (hq : Tolerates q loc) :
    Triple (d.Owned q S n loc) d.writeHandle fun x l =>
      (∀ h ∈ x.2, x.1.handle = some h ∧ h.write = true) ∧ x.1.Owned q S n loc l := by
  refine (getHandle_owned hq).bind fun ⟨d, h⟩ => triple_of fun hh =>
    triple_pure fun l hl => ⟨?_, hl⟩
  intro h' hh'
  dsimp only at hh hh'
  split_ifs at hh' with hread
  · cases hh'
  · subst hh
    obtain ⟨key, hkey, hkh⟩ := Option.bind_eq_some_iff.mp hh'
    refine ⟨hh', ?_⟩
    rw [hl.1.write key hkey h' hkh]
    simpa [hkey] using hread

/-- `get` leaves only this handle open. -/
theorem get_owned {uKey : WString} (hq : Tolerates q loc) :
    Triple (d.Owned q S n loc) (d.get uKey) fun x => x.1.Owned q S n loc := by
  refine (getHandle_owned hq).bind fun ⟨d, h⟩ => triple_of fun hh => ?_
  cases h with
  | none => exact triple_pure fun l hl => hl
  | some h =>
    have hids : h.ids ⊆ held d.handle := by rw [← hh]; exact List.Subset.refl _
    refine triple_of fun hkeys => (readKey_books hq hids).bind fun v => ?_
    exact triple_pure fun l hl => ⟨hkeys, hl⟩

/-- So does `children`. -/
theorem children_owned {uKey : WString} {spec : ChildSpec} (hq : Tolerates q loc) :
    Triple (d.Owned q S n loc) (d.children uKey spec) fun x => x.1.Owned q S n loc := by
  refine (getHandle_owned hq).bind fun ⟨d, h⟩ => triple_of fun hh => ?_
  cases h with
  | none => exact triple_pure fun l hl => hl
  | some h =>
    have hids : h.ids ⊆ held d.handle := by rw [← hh]; exact List.Subset.refl _
    refine triple_of fun hkeys => (openKey_books hq hids).bind fun o => triple_of fun _ => ?_
    cases o with
    | none => exact triple_pure fun l hl => ⟨hkeys, hl⟩
    | some handle =>
      have hhandle : handle.ids ⊆ held (some handle) ++ held d.handle := List.subset_append_left _ _
      have hend : ∀ names, Triple (Books q (held (some handle) ++ held d.handle) S n)
          (closeKey handle >>= fun _ => pure (d, mergeKeySets [] names))
          fun x => x.1.Owned q S n loc := fun names =>
        closeKey_books.bind fun _ => triple_pure fun l hl => ⟨hkeys, hl⟩
      dsimp only
      split_ifs
      · exact (allKeys_books hq hhandle).bind hend
      · exact (childKeysOrGroups_books hq hhandle).bind hend

/-- Changes through a handle that was opened to write are not counted. -/
def Permits (q : Call × Answer → Bool) (loc : Option Location) : Prop :=
  Tolerates q loc ∧ ∀ c r, c.handle.write = true → q (c, r) = false

/-- So does `set`. -/
theorem set_owned {uKey : WString} {value : RegVariant} {expand : Bool} (hq : Permits q loc) :
    Triple (d.Owned q S n loc) (d.set uKey value expand) fun d => d.Owned q S n loc := by
  refine (writeHandle_owned hq.1).bind fun ⟨d, h⟩ => triple_of fun hh => ?_
  cases h with
  | none => exact triple_pure fun l hl => hl.congr rfl
  | some h =>
    obtain ⟨hhandle, hwrite⟩ := hh h rfl
    have hids : h.ids ⊆ held d.handle := by rw [hhandle]; exact List.Subset.refl _
    refine triple_of fun hkeys => ?_
    refine (createOrOpenKey_books hq.1 hids fun _ _ r _ => hq.2 _ r hwrite).bind fun o =>
      triple_of fun ho => ?_
    cases o with
    | none => exact triple_pure fun l hl => ⟨hkeys.congr rfl, hl⟩
    | some handle =>
      refine triple_given.bind fun v => ?_
      refine (call_books (List.subset_append_left _ _) fun r => hq.2 _ r (ho handle rfl)).bind
        fun res => closeKey_books.bind fun _ => ?_
      split_ifs <;> exact triple_pure fun l hl => ⟨hkeys.congr rfl, hl⟩

/-- Removing a value closes the key of it. -/
theorem removeValue_books {L : List ℕ} {h : Handle} {rKey : WString} {wow64 : Bool}
    (hq : Permits q loc) (hids : h.ids ⊆ L) :
    Triple (Books q L S n) (removeValue h rKey wow64) fun _ => Books q L S n := by
  refine (openKey_books hq.1 hids).bind fun o => triple_of fun ho => ?_
  cases o with
  | none => exact triple_pure fun l hl => hl
  | some handle =>
    exact (call_books (List.subset_append_left _ _) fun r => hq.2 _ r (ho handle rfl)).bind
      fun _ => closeKey_books

/-- Removing a key closes it and all keys below. -/
theorem removeKey_books {L : List ℕ} {h : Handle} {rKey : WString} {wow64 : Bool}
    (hq : Permits q loc) (hids : h.ids ⊆ L) (hwrite : h.write = true) :
    Triple (Books q L S n) (removeKey h rKey wow64) fun _ => Books q L S n := by
  refine (openKey_books hq.1 hids).bind fun o => triple_of fun ho => ?_
  cases o with
  | none => exact triple_pure fun l hl => hl
  | some handle =>
    have hhandle : handle.ids ⊆ held (some handle) ++ L := List.subset_append_left _ _
    have hw : handle.write = true := ho handle rfl
    refine (deleteChildGroups_books hq.1 (fun h hh subKey r => hq.2 _ r hh) hhandle hw).bind
      fun _ => ?_
    split_ifs
    · refine (childKeysOrGroups_books hq.1 hhandle).bind fun childKeys => ?_
      refine (triple_foldlM (P := fun _ => Books q (held (some handle) ++ L) S n)
        (fun _ group _ => ?_) ()).bind fun _ => closeKey_books
      exact (call_books hhandle fun r => hq.2 _ r hw).bind fun _ => triple_pure fun l hl => hl
    · have hopen : h.ids ⊆ held (some handle) ++ L :=
        List.Subset.trans hids (List.subset_append_right _ _)
      exact (call_books hopen fun r => hq.2 _ r hwrite).bind fun _ => closeKey_books

/-- `remove` leaves only the handle of the location open. -/
theorem remove_owned {uKey : WString} (hq : Permits q loc) :
    Triple (d.Owned q S n loc) (d.remove uKey) fun d => d.Owned q S n loc := by
  refine (writeHandle_owned hq.1).bind fun ⟨d, h⟩ => triple_of fun hh => ?_
  cases h with
  | none => exact triple_pure fun l hl => hl.congr rfl
  | some h =>
    obtain ⟨hhandle, hwrite⟩ := hh h rfl
    have hids : h.ids ⊆ held d.handle := by rw [hhandle]; exact List.Subset.refl _
    refine triple_of fun hkeys => (removeValue_books hq hids).bind fun _ => ?_
    exact (removeKey_books hq hids hwrite).bind fun _ => triple_pure fun l hl => ⟨hkeys, hl⟩

/-- So does `clear`. -/
theorem clear_owned (hq : Permits q loc) :
    Triple (d.Owned q S n loc) d.clear fun d => d.Owned q S n loc :=
  (remove_owned hq).bind fun _ => triple_pure fun _ hl => hl.congr rfl

/-- `close` closes the handle of the location. -/
theorem close_owned : Triple (d.Owned q S n loc) d.close fun _ => Books q [] S n := by
  refine triple_of fun _ => ?_
  unfold close handle
  cases d.regList.bind (·.handle) with
  | none => exact triple_pure fun l hl => hl
  | some h => exact closeKey_books.pre fun l hl => by simpa using hl

/-- The destructor closes this one too. -/
theorem destroy_owned (hq : Tolerates q loc)
    (hd : d.deleteWriteHandleOnExit = true → ∀ c r, c.handle.write = true → q (c, r) = false) :
    Triple (d.Owned q S n loc) d.destroy fun _ => Books q [] S n := by
  unfold destroy
  split_ifs with hexit
  · refine (writeHandle_owned hq).bind fun ⟨d, h⟩ => triple_of fun hh => ?_
    cases h with
    | none => exact close_owned
    | some h =>
      obtain ⟨hhandle, hwrite⟩ := hh h rfl
      have hids : h.ids ⊆ held d.handle := by rw [hhandle]; exact List.Subset.refl _
      refine (triple_of fun hkeys => ?_ : Triple (d.Owned q S n loc) _ fun _ => Books q [] S n)
      exact (call_books hids fun r => hd hexit _ r hwrite).bind fun _ =>
        close_owned.pre fun l hl => ⟨hkeys, hl⟩
  · exact close_owned

end RegistryPrivate

/-- The methods that change values. -/
def Method.changes : Method → Bool
  | .setValue _ _ _ | .remove _ => true
  | _ => false

/-- A method leaves only the handle of the location open. -/
theorem perform_owned {m : Method} (hq : Tolerates q loc)
    (hm : m.changes = true → ∀ c r, c.handle.write = true → q (c, r) = false) :
    Triple (d.Owned q S n loc) (perform d m) fun x => x.1.Owned q S n loc := by
  cases m with
  | allKeys | childKeys | childGroups =>
    exact (RegistryPrivate.children_owned hq).bind fun x => triple_pure fun l hl => hl
  | isWritable =>
    exact (RegistryPrivate.writeHandle_owned hq).bind fun x => triple_pure fun l hl => hl.2
  | setValue key value exSz =>
    refine triple_given.bind fun k => (RegistryPrivate.set_owned ⟨hq, hm rfl⟩).bind fun d => ?_
    exact triple_pure fun l hl => hl
  | value | contains =>
    refine triple_given.bind fun k => (RegistryPrivate.get_owned hq).bind fun x => ?_
    exact triple_pure fun l hl => hl
  | remove key =>
    refine triple_given.bind fun theKey => ?_
    dsimp only
    generalize (if theKey = [] then group else groupPrefix ++ theKey) = theKey
    split_ifs
    · exact (RegistryPrivate.clear_owned ⟨hq, hm rfl⟩).bind fun d => triple_pure fun l hl => hl
    · exact (RegistryPrivate.remove_owned ⟨hq, hm rfl⟩).bind fun d => triple_pure fun l hl => hl

/-- So do any number of them. -/
theorem performs_owned (ms : List Method) (hq : Tolerates q loc)
    (hms : ∀ m ∈ ms, m.changes = true → ∀ c r, c.handle.write = true → q (c, r) = false) :
    Triple (d.Owned q S n loc) (performs d ms) fun d => d.Owned q S n loc :=
  triple_foldlM (P := fun d => RegistryPrivate.Owned q S n loc d) (fun _ m hm =>
    (perform_owned hq (hms m hm)).bind fun _ => triple_pure fun _ hl => hl) d

end Methods

section Exit

variable {d : RegistryPrivate} {e : Bool}

/-- What is not said of the books holds behind a script as before. -/
theorem triple_frame {φ : Prop} {α : Type} {p : Calls α} : Triple (fun _ => φ) p fun _ _ => φ :=
  fun _ _ _ _ _ h _ => h

namespace RegistryPrivate

/-- Getting the handle does not decide what the destructor does. -/
theorem getHandle_exit : Triple (fun _ => d.deleteWriteHandleOnExit = e) d.getHandle
    fun x _ => x.1.deleteWriteHandleOnExit = e := by
  obtain ⟨regList, exit, status, wow64⟩ := d
  cases regList with
  | none => exact triple_pure fun l hl => hl
  | some key => exact triple_frame.bind fun key => triple_pure fun l hl => hl

/-- Nor does `get`. -/
theorem get_exit {uKey : WString} : Triple (fun _ => d.deleteWriteHandleOnExit = e) (d.get uKey)
    fun x _ => x.1.deleteWriteHandleOnExit = e := by
  refine getHandle_exit.bind fun ⟨d, h⟩ => ?_
  cases h with
  | none => exact triple_pure fun l hl => hl
  | some h => exact triple_frame.bind fun v => triple_pure fun l hl => hl

/-- Nor does `children`. -/
theorem children_exit {uKey : WString} {spec : ChildSpec} :
    Triple (fun _ => d.deleteWriteHandleOnExit = e) (d.children uKey spec)
      fun x _ => x.1.deleteWriteHandleOnExit = e := by
  refine getHandle_exit.bind fun ⟨d, h⟩ => ?_
  cases h with
  | none => exact triple_pure fun l hl => hl
  | some h =>
    refine triple_frame.bind fun o => ?_
    cases o with
    | none => exact triple_pure fun l hl => hl
    | some handle =>
      dsimp only
      split_ifs <;> exact triple_frame.bind fun names => triple_frame.bind fun _ =>
        triple_pure fun l hl => hl

end RegistryPrivate

/-- Only a method that changes values decides what the destructor deletes. -/
theorem perform_exit {m : Method} (hm : m.changes = false) :
    Triple (fun _ => d.deleteWriteHandleOnExit = e) (perform d m)
      fun x _ => x.1.deleteWriteHandleOnExit = e := by
  cases m with
  | allKeys | childKeys | childGroups =>
    exact RegistryPrivate.children_exit.bind fun x => triple_pure fun l hl => hl
  | isWritable =>
    exact (RegistryPrivate.getHandle_exit.bind fun x => triple_pure fun l hl => hl :
      Triple _ d.writeHandle fun x _ => x.1.deleteWriteHandleOnExit = e).bind fun x =>
        triple_pure fun l hl => hl
  | setValue | remove => cases hm
  | value | contains =>
    refine triple_frame.bind fun k => RegistryPrivate.get_exit.bind fun x => ?_
    exact triple_pure fun l hl => hl

/-- Nor does any other reader. -/
theorem performs_exit {ms : List Method} (hms : ∀ m ∈ ms, m.changes = false) :
    Triple (fun _ => d.deleteWriteHandleOnExit = e) (performs d ms)
      fun d _ => d.deleteWriteHandleOnExit = e :=
  triple_foldlM (P := fun (d : RegistryPrivate) _ => d.deleteWriteHandleOnExit = e) (fun _ m hm =>
    (perform_exit (hms m hm)).bind fun _ => triple_pure fun _ hl => hl) d

end Exit

section Lives

variable (towlower : WideMemory.WChar → WideMemory.WChar) (rPath : WString) (wow : Bool)
  (s : Status) (ms : List Method)

/-- An object that was just constructed. -/
theorem construct_owned (q : Call × Answer → Bool) :
    (construct towlower rPath wow s).Owned q [] 0 (location towlower rPath) Ledger.empty := by
  refine ⟨⟨?_, ?_⟩, ⟨?_, rfl, rfl⟩⟩
  · unfold construct
    cases location towlower rPath <;> rfl
  · rintro key hkey h hh
    obtain ⟨l, -, rfl⟩ := Option.map_eq_some_iff.mp hkey
    cases hh
  · unfold RegistryPrivate.handle construct
    cases location towlower rPath <;> rfl

/-- A change through a handle that was opened to read. -/
def oversteps (e : Call × Answer) : Bool := e.1.api.changes && !e.1.handle.write

/-- The calls that would break the rules are not among those that are made. -/
theorem oversteps_permits (loc : Option Location) : RegistryPrivate.Permits oversteps loc := by
  have hwrite : ∀ c r, c.handle.write = true → oversteps (c, r) = false := fun c r hc => by
    simp [oversteps, hc]
  refine ⟨fun c r hc => ?_, hwrite⟩
  rcases Bool.or_eq_true_iff.mp hc with hc | hc
  · rw [Bool.not_eq_true'] at hc
    simp [oversteps, hc]
  · obtain ⟨l, -, hl⟩ := (Option.any_eq_true _ _).mp hc
    exact hwrite c r (Call.write_of_creates hl)

/-- Between the calls only the handle of the location is open, and none when the object is gone;
each is used before it is closed only, and one that was opened to read changes nothing. -/
theorem life_returns_handles :
    Triple (· = Ledger.empty) (performs (construct towlower rPath wow s) ms)
        (fun d l => l.live = held d.handle) ∧
      Triple (· = Ledger.empty) (life (construct towlower rPath wow s) ms) fun _ l =>
        l.live = [] ∧ l.strays = [] ∧
          ∀ e ∈ l.log, e.1.api.changes = true → e.1.handle.write = true := by
  have hstart : ∀ l : Ledger Call Answer, l = Ledger.empty →
      (construct towlower rPath wow s).Owned oversteps [] 0 (location towlower rPath) l := by
    rintro l rfl
    exact construct_owned towlower rPath wow s oversteps
  have hpermits := oversteps_permits (location towlower rPath)
  have hrun := (performs_owned ms hpermits.1 fun m _ _ => hpermits.2).pre hstart
  refine ⟨hrun.post fun d l hl => hl.2.live, ?_⟩
  refine (hrun.bind fun d => RegistryPrivate.destroy_owned hpermits.1 fun _ => hpermits.2).post
    fun _ l hl => ⟨hl.live, hl.strays, fun e he hc => ?_⟩
  have hq := List.countP_eq_zero.mp hl.count e he
  simpa [oversteps, hc] using hq

/-- The answer to all calls but those for a subgroup. -/
def granted : Answer := ⟨true, 0, 0, wide ['b'], ⟨.dword, [1, 0, 0, 0]⟩⟩

/-- There is one subgroup. -/
def oneGroup : Answer := { granted with numSubgroups := 1 }

/-- `HKCU\\a`, where everything is granted. -/
def granting : RegistryPrivate :=
  construct asciiLower (wide ['H', 'K', 'C', 'U', '\\', 'a']) false .noError

/-- The answers for a life that sets and reads a value, lists all names and removes them all; the
second and the last of these find a group. -/
def twoGroups : List Answer :=
  List.replicate 9 granted ++ [oneGroup] ++ List.replicate 7 granted ++ [oneGroup] ++
    List.replicate 6 granted

/-- Nine handles are opened there, and closed. -/
theorem life_returns_handles_groups : ∃ l, life granting
    [.setValue (wide ['k']) (.int 5) false, .value (wide ['k']) .empty, .allKeys, .remove []]
    Ledger.empty twoGroups = some (((), l), []) ∧ l.opened = 9 ∧ l.live = [] ∧ l.strays = [] := by
  have hrun : ((life granting
      [.setValue (wide ['k']) (.int 5) false, .value (wide ['k']) .empty, .allKeys, .remove []]
      Ledger.empty twoGroups).map fun x => (x.1.2.opened, x.2)) = some (9, []) := by
    decide +kernel
  obtain ⟨⟨⟨⟨⟩, l⟩, as⟩, he, hx⟩ := Option.map_eq_some_iff.mp hrun
  obtain ⟨ho, rfl⟩ : l.opened = 9 ∧ as = [] := by simpa using hx
  have hl := (life_returns_handles _ _ _ _ _).2 _ _ _ _ _ rfl he
  exact ⟨l, he, ho, hl.1, hl.2.1⟩

/-- A life that only reads changes nothing but that it may create its own location. -/
theorem readers_change_nothing (hms : ∀ m ∈ ms, m.changes = false) :
    Triple (· = Ledger.empty) (life (construct towlower rPath wow s) ms) fun _ l =>
      ∀ e ∈ l.log, e.1.harmless (location towlower rPath) = true := by
  have hq : Tolerates (fun e => !e.1.harmless (location towlower rPath))
      (location towlower rPath) := fun c r hc => by simp [hc]
  have howned := performs_owned (d := construct towlower rPath wow s) (S := []) (n := 0) ms hq
    fun m hm hc => by rw [hms m hm] at hc; cases hc
  have hrun : Triple (· = Ledger.empty) (performs (construct towlower rPath wow s) ms) _ :=
    (howned.and (performs_exit (e := false) hms)).pre fun l hl =>
      ⟨hl ▸ construct_owned towlower rPath wow s _, rfl⟩
  refine (hrun.bind fun d => (triple_of fun hexit => RegistryPrivate.destroy_owned hq fun hd => by
    rw [hexit] at hd; cases hd).pre fun l hl => ⟨hl.2, hl.1⟩).post fun _ l hl e he => ?_
  have he := List.countP_eq_zero.mp hl.count e he
  simpa using he

/-- The answers for a life that lists all names and asks for the access. -/
def oneListed : List Answer := List.replicate 4 granted ++ [oneGroup] ++ List.replicate 4 granted

/-- The readers ask for the keys and whether the location can be written. -/
theorem readers_change_nothing_groups : ∃ l,
    life granting [.allKeys, .isWritable] Ledger.empty oneListed = some (((), l), []) ∧
      ∀ e ∈ l.log, e.1.harmless (some ⟨.currentUser, wide ['a']⟩) = true := by
  have hrun : ((life granting [.allKeys, .isWritable] Ledger.empty oneListed).map (·.2)) =
      some [] := by
    decide +kernel
  obtain ⟨⟨⟨⟨⟩, l⟩, as⟩, he, hx⟩ := Option.map_eq_some_iff.mp hrun
  obtain rfl : as = [] := hx
  have hloc : location asciiLower (wide ['H', 'K', 'C', 'U', '\\', 'a']) =
      some ⟨.currentUser, wide ['a']⟩ := by decide +kernel
  exact ⟨l, he, hloc ▸ readers_change_nothing _ _ _ _ _ (by decide) _ _ _ _ _ rfl he⟩

end Lives

end KernelLib.RegistryHandles
