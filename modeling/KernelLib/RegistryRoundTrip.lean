import KernelLib.RegistryCalls

/-!
# Values that are written and read

`Registry::setValue` and `Registry::value` go to the same key and value
name, so that what comes back is what `readKey` makes of the written bytes.
The bytes of other programs are read within their bounds when they have the
shape that their type asks for.
-/

namespace KernelLib.RegistryRoundTrip

open WideMemory RegistryValues RegistryKeys RegistryTree RegistryCalls

variable {F : Caseless}

/-- What the registry holds under a key, if there is anything. -/
def stored (t : Tree F) (parentHandle : Path) (rSubKey : WString) : Option Stored := do
  let handle ← openKey t parentHandle (keyPath rSubKey)
  t.regQueryValueEx handle (keyName rSubKey)

/-- What reading makes of what is held: whether there is a value, and which. -/
def decoded : Option Stored → Option (Option RegVariant)
  | none => some none
  | some st => (readData st).map some

/-- Reading is the decoding of what is held. -/
theorem readKey_eq (t : Tree F) (parentHandle : Path) (rSubKey : WString) :
    readKey t parentHandle rSubKey = decoded (stored t parentHandle rSubKey) := by
  unfold readKey stored
  cases openKey t parentHandle (keyPath rSubKey) with
  | none => rfl
  | some handle =>
    simp only [Option.bind_eq_bind, Option.bind_some]
    cases t.regQueryValueEx handle (keyName rSubKey) with
    | none => rfl
    | some v => rfl

/-- Reading a key stays in the data, and ends, exactly when what is held there
has the shape of its type. -/
theorem read_iff (t : Tree F) (parentHandle : Path) (rSubKey : WString) :
    (readKey t parentHandle rSubKey).isSome ↔
      ∀ st, stored t parentHandle rSubKey = some st → WellShaped st := by
  rw [readKey_eq]
  cases stored t parentHandle rSubKey with
  | none => simp [decoded]
  | some st => simp [decoded, readData_isSome]

/-- A value of one byte that is said to be a number of four. -/
def shortNumber : Tree exactNames := (Tree.root exactNames).regSetValueEx [] [] ⟨.dword, [1]⟩

/-- The number is read behind its byte. -/
theorem not_read_shortNumber :
    ¬ ∀ (F : Caseless) (t : Tree F) (parentHandle : Path) (rSubKey : WString),
      (readKey t parentHandle rSubKey).isSome := by
  intro h
  have hread := h exactNames shortNumber [] []
  have hnone : (readKey shortNumber [] []).isSome = false := by decide
  rw [hnone] at hread
  cases hread

/-- The calls succeed: the location is open for writing and still there. -/
structure Opened (d : RegistryPrivate F) : Prop where
  writable : d.writeHandle = some []
  found : (d.tree.find? []).isSome

theorem Opened.regList {d : RegistryPrivate F} (h : Opened d) :
    ∃ key, d.regList = some key ∧ key.opened = true := by
  have hw := h.writable
  unfold RegistryPrivate.writeHandle at hw
  cases hreg : d.regList with
  | none => simp [hreg] at hw
  | some key =>
    refine ⟨key, rfl, ?_⟩
    cases ho : key.opened with
    | true => rfl
    | false => simp [hreg, ho] at hw

/-- A path is opened, or created below what is there. -/
theorem createOrOpenKey_spec {t : Tree F} {parentHandle : Path} (h : (t.find? parentHandle).isSome)
    (rSubKey : WString) : ∃ t', createOrOpenKey t parentHandle rSubKey =
      some (t', parentHandle ++ components rSubKey) ∧
        (t'.find? (parentHandle ++ components rSubKey)).isSome := by
  by_cases hp : (t.find? (parentHandle ++ components rSubKey)).isSome
  · exact ⟨t, by simp [createOrOpenKey, openKey, Tree.regOpenKeyEx, hp], hp⟩
  · refine ⟨_, ?_, Tree.addKeys_find? (fun _ hn => nameOk_of_mem_components hn) h⟩
    simp [createOrOpenKey, openKey, Tree.regOpenKeyEx, hp, Tree.regCreateKeyEx, h]

/-- What is set is what is held under the key. -/
theorem stored_set {d : RegistryPrivate F} (h : Opened d) (uKey : WString) {v : RegVariant}
    {st : Stored} {expand : Bool} (hw : writeData expand v = some st) :
    ∃ d', d.set uKey v expand = some d' ∧ d'.regList = d.regList ∧
      stored d'.tree [] (escapedKey uKey) = some (passed st) := by
  obtain ⟨t, hcreate, hfound⟩ := createOrOpenKey_spec h.found (keyPath (escapedKey uKey))
  refine ⟨{ d with
    tree := t.regSetValueEx ([] ++ components (keyPath (escapedKey uKey)))
      (keyName (escapedKey uKey)) (passed st)
    deleteWriteHandleOnExit := false }, ?_, rfl, ?_⟩
  · simp [RegistryPrivate.set, h.writable, hcreate, hw]
  · have hopen : openKey (t.regSetValueEx ([] ++ components (keyPath (escapedKey uKey)))
        (keyName (escapedKey uKey)) (passed st)) [] (keyPath (escapedKey uKey)) =
          some ([] ++ components (keyPath (escapedKey uKey))) := by
      simp only [openKey, Tree.regOpenKeyEx, Tree.regSetValueEx, Tree.find?_withValues,
        Option.isSome_map, hfound, if_true]
    rw [stored, hopen]
    exact Tree.regQueryValueEx_regSetValueEx hfound

/-- A value comes back from the key it is set under exactly when it is clean and
its bytes can be counted. -/
theorem survives_iff {reg : Registry F} (h : Opened reg.d) (key : WString) {v : RegVariant}
    (hv : v ≠ .empty) (exSz : Bool) (defaultValue : RegVariant) :
    (∃ reg', reg.setValue key v exSz = some reg' ∧ reg'.value key defaultValue = some v) ↔
      Clean v ∧ encodedSize v < 2 ^ 32 := by
  obtain ⟨st, hw, hback⟩ := readData_writeData exSz hv
  obtain ⟨k, hk⟩ : ∃ k, actualKey key = some k := ⟨_, by rw [actualKey, normalizedKey_eq]; rfl⟩
  obtain ⟨d', hset, hreg, hst⟩ := stored_set h k hw
  obtain ⟨rk, hrk, hopened⟩ := h.regList
  have hget : d'.get k = (readData (passed st)).map some := by
    rw [RegistryPrivate.get, hreg, hrk]
    simp only [hopened, if_true]
    exact (readKey_eq ..).trans (congrArg decoded hst)
  have hset' : reg.setValue key v exSz = some ⟨d'⟩ := by
    simp [Registry.setValue, hk, hset]
  have hvalue : (⟨d'⟩ : Registry F).value key defaultValue = readData (passed st) := by
    rw [Registry.value, hk, Option.bind_eq_bind, Option.bind_some, hget]
    cases readData (passed st) <;> rfl
  rw [← hback]
  constructor
  · rintro ⟨reg', hreg', hv'⟩
    rw [hset', Option.some.injEq] at hreg'
    rwa [← hreg', hvalue] at hv'
  · intro hread
    exact ⟨⟨d'⟩, hset', hvalue.trans hread⟩

/-- A location without keys and values, open for writing. -/
def newLocation : Registry exactNames := ⟨⟨Tree.root exactNames, some ⟨true, false⟩, false, .noError⟩⟩

theorem newLocation_opened : Opened newLocation.d := ⟨rfl, by decide⟩

theorem survives_iff_hello :
    (∃ reg', newLocation.setValue [0x61, 0x2F, 0x62] (.wstring [0x68, 0x69]) false = some reg' ∧
      reg'.value [0x61, 0x2F, 0x62] .empty = some (.wstring [0x68, 0x69])) ↔
        Clean (.wstring [0x68, 0x69]) ∧ encodedSize (.wstring [0x68, 0x69]) < 2 ^ 32 :=
  survives_iff newLocation_opened _ (by decide) _ _

/-- An empty string in a list ends it. -/
theorem not_survives_emptyElement :
    ¬ ∀ (F : Caseless) (reg : Registry F) (key : WString) (v defaultValue : RegVariant) (exSz : Bool),
      Opened reg.d → v ≠ .empty →
        ∃ reg', reg.setValue key v exSz = some reg' ∧ reg'.value key defaultValue = some v := by
  intro h
  obtain ⟨reg', hset, hvalue⟩ := h exactNames newLocation [0x61] (.stringList [[], [0x62]]) .empty
    false newLocation_opened (by decide)
  have hread : (newLocation.setValue [0x61] (.stringList [[], [0x62]]) false).bind
      (fun reg => reg.value [0x61] .empty) = some (.stringList []) := by decide
  rw [hset, Option.bind_some, hvalue] at hread
  exact absurd hread (by decide)

end KernelLib.RegistryRoundTrip
