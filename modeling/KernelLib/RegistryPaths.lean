import KernelLib.RegistryKeys

/-!
# The path of a registry object

The constructor of `RegistryPrivate` takes a path apart: a backslash that may
be left out, one of eight names of a predefined key in any case, and behind
another backslash the key itself. It accepts nothing else, and keeps the key
as it was written. `fileName` writes such a path; it names the same location
only below two of the four predefined keys.
-/

namespace KernelLib.RegistryPaths

open WideMemory RegistryValues RegistryKeys

/-- The predefined keys. -/
inductive Root where
  /-- `HKEY_CURRENT_USER`. -/
  | currentUser
  /-- `HKEY_LOCAL_MACHINE`. -/
  | localMachine
  /-- `HKEY_CLASSES_ROOT`. -/
  | classesRoot
  /-- `HKEY_USERS`. -/
  | users
  deriving DecidableEq, Repr

/-- What `RegistryKey` is constructed with. -/
structure Location where
  /-- `m_parent_handle`. -/
  root : Root
  /-- `m_key`. -/
  key : WString
  deriving DecidableEq, Repr

/-- A branch of the constructor. -/
structure Branch where
  /-- What the path starts with. -/
  name : WString
  /-- `keyLength`. -/
  keyLength : ℕ
  /-- `keyName`. -/
  root : Root

/-- A literal. -/
def wide (cs : List Char) : WString := cs.map fun c => UInt16.ofNat c.toNat

/-- `L"HKEY_CURRENT_USER"`. -/
def hkeyCurrentUser : WString :=
  wide ['H', 'K', 'E', 'Y', '_', 'C', 'U', 'R', 'R', 'E', 'N', 'T', '_', 'U', 'S', 'E', 'R']

/-- `L"HKEY_LOCAL_MACHINE"`. -/
def hkeyLocalMachine : WString :=
  wide ['H', 'K', 'E', 'Y', '_', 'L', 'O', 'C', 'A', 'L', '_', 'M', 'A', 'C', 'H', 'I', 'N', 'E']

/-- `L"HKEY_CLASSES_ROOT"`. -/
def hkeyClassesRoot : WString :=
  wide ['H', 'K', 'E', 'Y', '_', 'C', 'L', 'A', 'S', 'S', 'E', 'S', '_', 'R', 'O', 'O', 'T']

/-- `L"HKEY_USERS"`. -/
def hkeyUsers : WString := wide ['H', 'K', 'E', 'Y', '_', 'U', 'S', 'E', 'R', 'S']

/-- The branches, in order. -/
def branches : List Branch :=
  [⟨hkeyCurrentUser, 17, .currentUser⟩, ⟨wide ['H', 'K', 'C', 'U'], 4, .currentUser⟩,
    ⟨hkeyLocalMachine, 18, .localMachine⟩, ⟨wide ['H', 'K', 'L', 'M'], 4, .localMachine⟩,
    ⟨hkeyClassesRoot, 17, .classesRoot⟩, ⟨wide ['H', 'K', 'C', 'R'], 4, .classesRoot⟩,
    ⟨hkeyUsers, 10, .users⟩, ⟨wide ['H', 'K', 'U'], 3, .users⟩]

section Source

variable (towlower : WChar → WChar)

/-- `_wcsnicmp` of two texts that end with a null, and whether it is 0. -/
def wcsnicmp : WString → WString → ℕ → Bool
  | _, _, 0 => true
  | a, b, n + 1 =>
    towlower (a.headD 0) = towlower (b.headD 0) && (a.headD 0 = 0 || wcsnicmp a.tail b.tail n)

/-- `StartWith`. -/
def startWith (org start : WString) : Bool :=
  if start.length > org.length then false else wcsnicmp towlower org start start.length

/-- `StartWith` of one character. -/
def startWithChar (org : WString) (start : WChar) : Bool :=
  if org = [] then false else wcsnicmp towlower org [start] 1

/-- A branch is taken. -/
def Branch.take (b : Branch) (rPath : WString) : Option Location :=
  if rPath.length = b.keyLength then some ⟨b.root, []⟩
  else if rPath[b.keyLength]? = some backslash then some ⟨b.root, rPath.drop (b.keyLength + 1)⟩
  else none

/-- `RegistryPrivate::RegistryPrivate`: what is pushed to `regList`, if anything. -/
def location (rPath : WString) : Option Location :=
  let rPath := if startWithChar towlower rPath backslash then rPath.drop 1 else rPath
  (branches.find? fun b => startWith towlower rPath b.name).bind fun b => b.take rPath

/-- `fileName`. -/
def fileName : Option Location → WString
  | none => []
  | some key =>
    let result := if key.root = .currentUser then [backslash] ++ hkeyCurrentUser ++ [backslash]
      else [backslash] ++ hkeyLocalMachine ++ [backslash]
    result ++ key.key

end Source

/-- Lower case of the letters A to Z. -/
def asciiLower (c : WChar) : WChar := if 0x41 ≤ c ∧ c ≤ 0x5A then c + 0x20 else c

/-- A locale. -/
def Locale (towlower : WChar → WChar) : Prop := ∀ c < 128, towlower c = asciiLower c

section Grammar

variable {towlower : WChar → WChar} {org start : WString} {p name : WString} {l : Location}

/-- The characters of the names. -/
def Plain (s : WString) : Prop := ∀ c ∈ s, c < 128 ∧ asciiLower c ≠ 0

instance decidablePlain (s : WString) : Decidable (Plain s) := List.decidableBAll _ s

theorem branches_plain : ∀ b ∈ branches, Plain b.name := by decide +kernel

theorem branches_length : ∀ b ∈ branches, b.name.length = b.keyLength := by decide +kernel

/-- No name starts with a backslash. -/
theorem branches_first : ∀ b ∈ branches, b.name.map asciiLower ≠ [] ∧
    (b.name.map asciiLower).head? ≠ some backslash := by decide +kernel

theorem wcsnicmp_succ {a b : WString} {n : ℕ} :
    wcsnicmp towlower a b (n + 1) = true ↔ towlower (a.headD 0) = towlower (b.headD 0) ∧
      (a.headD 0 = 0 ∨ wcsnicmp towlower a.tail b.tail n = true) := by
  simp only [wcsnicmp, Bool.and_eq_true, Bool.or_eq_true, decide_eq_true_iff]

/-- `_wcsnicmp` with a name finds it in front, up to the case. -/
theorem wcsnicmp_iff (h : Locale towlower) (hs : Plain start) :
    wcsnicmp towlower org start start.length = true ↔
      ∃ name rest, org = name ++ rest ∧ name.map towlower = start.map towlower := by
  induction start generalizing org with
  | nil => simp [wcsnicmp]
  | cons c start ih =>
    obtain ⟨hc, hc0⟩ := hs c List.mem_cons_self
    have hne : ¬towlower 0 = towlower c := fun he => by
      rw [h 0 (by decide), h c hc] at he
      exact hc0 he.symm
    cases org with
    | nil => simp [wcsnicmp, hne]
    | cons a org =>
      have ih : wcsnicmp towlower org start start.length = true ↔ _ :=
        ih fun x hx => hs x (List.mem_cons_of_mem c hx)
      have hstep : wcsnicmp towlower (a :: org) (c :: start) (c :: start).length = true ↔
          towlower a = towlower c ∧ wcsnicmp towlower org start start.length = true := by
        have ha : towlower a = towlower c → a ≠ 0 := fun he h0 => hne (h0 ▸ he)
        rw [List.length_cons, wcsnicmp_succ]
        exact and_congr_right fun he => or_iff_right (ha he)
      rw [hstep, ih]
      constructor
      · rintro ⟨ha, name, rest, rfl, hn⟩
        exact ⟨a :: name, rest, rfl, by simp [ha, hn]⟩
      · rintro ⟨_ | ⟨b, name⟩, rest, he, hn⟩
        · simp at hn
        · obtain ⟨rfl, rfl⟩ := List.cons.inj he
          simp only [List.map_cons, List.cons.injEq] at hn
          exact ⟨hn.1, name, rest, rfl, hn.2⟩

theorem startWith_iff (h : Locale towlower) (hs : Plain start) :
    startWith towlower org start = true ↔
      ∃ name rest, org = name ++ rest ∧ name.map towlower = start.map towlower := by
  unfold startWith
  split_ifs with hlen
  · refine iff_of_false nofun fun ⟨name, rest, he, hn⟩ => ?_
    have hl := congrArg List.length hn
    simp only [List.length_map] at hl
    rw [he, List.length_append, hl] at hlen
    omega
  · exact wcsnicmp_iff h hs

/-- A name of a predefined key, in any case. -/
def Names (towlower : WChar → WChar) (name : WString) (root : Root) : Prop :=
  ∃ b ∈ branches, b.root = root ∧ name.map towlower = b.name.map towlower

/-- No name starts another one. -/
theorem branches_apart : ∀ b ∈ branches, ∀ c ∈ branches,
    (b.name.map asciiLower).take c.name.length = (c.name.map asciiLower).take b.name.length →
      b.name = c.name ∧ b.root = c.root := by decide +kernel

theorem map_towlower (h : Locale towlower) (hs : Plain start) :
    start.map towlower = start.map asciiLower :=
  List.map_congr_left fun c hc => h c (hs c hc).1

/-- At most one branch is taken, whichever comes first. -/
theorem branch_unique (h : Locale towlower) {b c : Branch} (hb : b ∈ branches) (hc : c ∈ branches)
    (hsb : startWith towlower p b.name = true) (hsc : startWith towlower p c.name = true) :
    b.name = c.name ∧ b.root = c.root := by
  have htake : ∀ b ∈ branches, startWith towlower p b.name = true →
      b.name.map asciiLower = (p.map towlower).take b.name.length := by
    intro b hb hs
    obtain ⟨name, rest, rfl, hn⟩ := (startWith_iff h (branches_plain b hb)).mp hs
    have hl : name.length = b.name.length := by simpa using congrArg List.length hn
    rw [← map_towlower h (branches_plain b hb), ← hn, List.map_append,
      List.take_left' (by simp [hl])]
  refine branches_apart b hb c hc ?_
  rw [htake b hb hsb, htake c hc hsc, List.take_take, List.take_take, Nat.min_comm]

/-- Behind the name nothing follows, or a backslash and the key. -/
theorem take_iff {b : Branch} {rest : WString} (hl : name.length = b.keyLength) :
    b.take (name ++ rest) = some l ↔
      b.root = l.root ∧ (rest = [] ∧ l.key = [] ∨ rest = backslash :: l.key) := by
  obtain ⟨root, key⟩ := l
  cases rest with
  | nil => simp [Branch.take, hl, eq_comm]
  | cons c rest =>
    have hlen : (name ++ c :: rest).length ≠ b.keyLength := by
      rw [List.length_append, hl, List.length_cons]
      omega
    have hget : (name ++ c :: rest)[b.keyLength]? = some c := by
      rw [← hl, List.getElem?_append_right le_rfl, Nat.sub_self]
      rfl
    have hdrop : (name ++ c :: rest).drop (b.keyLength + 1) = rest := by
      rw [← hl, List.drop_length_add_append]
      rfl
    rw [Branch.take, if_neg hlen, hget, hdrop]
    by_cases hcb : c = backslash
    · simp [hcb]
    · simp [hcb]

/-- The branches, once a leading backslash is gone. -/
theorem find_iff (h : Locale towlower) :
    ((branches.find? fun b => startWith towlower p b.name).bind fun b => b.take p) = some l ↔
      ∃ name rest, p = name ++ rest ∧ Names towlower name l.root ∧
        (rest = [] ∧ l.key = [] ∨ rest = backslash :: l.key) := by
  have hlen : ∀ b ∈ branches, ∀ name : WString, name.map towlower = b.name.map towlower →
      name.length = b.keyLength := fun b hb name hn => by
    have hl : name.length = b.name.length := by simpa using congrArg List.length hn
    exact hl.trans (branches_length b hb)
  constructor
  · intro hf
    obtain ⟨b, hfind, ht⟩ := Option.bind_eq_some_iff.mp hf
    have hb := List.mem_of_find?_eq_some hfind
    have hs := List.find?_some hfind
    obtain ⟨name, rest, rfl, hn⟩ := (startWith_iff h (branches_plain b hb)).mp hs
    obtain ⟨hroot, hrest⟩ := (take_iff (hlen b hb name hn)).mp ht
    exact ⟨name, rest, rfl, ⟨b, hb, hroot, hn⟩, hrest⟩
  · rintro ⟨name, rest, rfl, ⟨b, hb, hroot, hn⟩, hrest⟩
    have hsb := (startWith_iff h (branches_plain b hb)).mpr ⟨name, rest, rfl, hn⟩
    obtain ⟨c, hfind⟩ := Option.isSome_iff_exists.mp
      (List.find?_isSome.mpr ⟨b, hb, hsb⟩ :
        (branches.find? fun b => startWith towlower (name ++ rest) b.name).isSome)
    have hc := List.mem_of_find?_eq_some hfind
    have hsc := List.find?_some hfind
    obtain ⟨hname, hroot'⟩ := branch_unique h hc hb hsc hsb
    rw [hfind, Option.bind_some]
    exact (take_iff (hlen c hc name (hname ▸ hn))).mpr ⟨hroot'.trans hroot, hrest⟩

/-- What a path is made of: a character that counts as a backslash and may be left out, a name of
a predefined key, and a backslash with the key, which may be left out, too. -/
def Reads (towlower : WChar → WChar) (p : WString) (l : Location) : Prop :=
  ∃ lead name rest, p = lead ++ (name ++ rest) ∧
    (lead = [] ∨ ∃ c, towlower c = backslash ∧ lead = [c]) ∧ Names towlower name l.root ∧
    (rest = [] ∧ l.key = [] ∨ rest = backslash :: l.key)

theorem towlower_backslash (h : Locale towlower) : towlower backslash = backslash :=
  h backslash (by decide)

theorem startWithChar_iff (h : Locale towlower) :
    startWithChar towlower p backslash = true ↔ ∃ c q, p = c :: q ∧ towlower c = backslash := by
  cases p with
  | nil => simp [startWithChar]
  | cons c p => simp [startWithChar, wcsnicmp, towlower_backslash h]

/-- No name is empty, and none starts with what counts as a backslash. -/
theorem Names.cons (h : Locale towlower) {root : Root} (hn : Names towlower name root) :
    ∃ c name', name = c :: name' ∧ towlower c ≠ backslash := by
  obtain ⟨b, hb, -, hn⟩ := hn
  obtain ⟨hne, hfirst⟩ := branches_first b hb
  rw [← map_towlower h (branches_plain b hb), ← hn] at hne hfirst
  cases name with
  | nil => exact absurd rfl hne
  | cons c name' => exact ⟨c, name', rfl, fun hc => hfirst (congrArg some hc)⟩

/-- The constructor accepts just these paths. -/
theorem location_eq_some (h : Locale towlower) :
    location towlower p = some l ↔ Reads towlower p l := by
  unfold location
  rw [find_iff h]
  constructor
  · rintro ⟨name, rest, hp, hn, hrest⟩
    split_ifs at hp with hs
    · obtain ⟨c, q, rfl, hc⟩ := (startWithChar_iff h).mp hs
      rw [List.drop_one, List.tail_cons] at hp
      exact ⟨[c], name, rest, by rw [hp]; rfl, .inr ⟨c, hc, rfl⟩, hn, hrest⟩
    · exact ⟨[], name, rest, hp, .inl rfl, hn, hrest⟩
  · rintro ⟨lead, name, rest, rfl, rfl | ⟨c, hc, rfl⟩, hn, hrest⟩
    · obtain ⟨c, name, rfl, hc⟩ := hn.cons h
      have hs : ¬startWithChar towlower ([] ++ (c :: name ++ rest)) backslash = true := fun hs => by
        obtain ⟨x, q, he, hx⟩ := (startWithChar_iff h).mp hs
        obtain ⟨rfl, -⟩ := List.cons.inj he
        exact hc hx
      rw [if_neg hs]
      exact ⟨c :: name, rest, rfl, hn, hrest⟩
    · have hs : startWithChar towlower ([c] ++ (name ++ rest)) backslash = true :=
        (startWithChar_iff h).mpr ⟨c, name ++ rest, rfl, hc⟩
      rw [if_pos hs]
      exact ⟨name, rest, rfl, hn, hrest⟩

/-- A path of its own for each predefined key with a long name. -/
theorem location_long (h : Locale towlower) {b : Branch} (hb : b ∈ branches) (key : WString) :
    location towlower ([backslash] ++ b.name ++ [backslash] ++ key) = some ⟨b.root, key⟩ := by
  rw [location_eq_some h]
  exact ⟨[backslash], b.name, backslash :: key, by simp,
    .inr ⟨backslash, towlower_backslash h, rfl⟩, ⟨b, hb, rfl, rfl⟩, .inr rfl⟩

theorem location_nil (h : Locale towlower) : location towlower [] = none := by
  refine Option.eq_none_iff_forall_ne_some.mpr fun l hl => ?_
  obtain ⟨lead, name, rest, hp, -, hn, -⟩ := (location_eq_some h).mp hl
  obtain ⟨c, name', rfl, -⟩ := hn.cons h
  simp at hp

/-- `fileName` is of the current user or of the local machine, whatever the root is. -/
theorem location_fileName (h : Locale towlower) (l : Location) :
    location towlower (fileName (some l)) =
      some ⟨if l.root = .currentUser then .currentUser else .localMachine, l.key⟩ := by
  unfold fileName
  dsimp only
  split_ifs with hl
  · exact location_long h (b := ⟨hkeyCurrentUser, 17, .currentUser⟩) (by simp [branches]) l.key
  · exact location_long h (b := ⟨hkeyLocalMachine, 18, .localMachine⟩) (by simp [branches]) l.key

/-- The constructor accepts the paths of the grammar, and `fileName` is a path of the same location
just below the current user and the local machine. -/
theorem paths_round (h : Locale towlower) (p : WString) :
    (∀ l, location towlower p = some l ↔ Reads towlower p l) ∧
      (location towlower (fileName (location towlower p)) = location towlower p ↔
        ∀ l ∈ location towlower p, l.root = .currentUser ∨ l.root = .localMachine) := by
  refine ⟨fun l => location_eq_some h, ?_⟩
  cases hp : location towlower p with
  | none => simp [fileName, location_nil h]
  | some l =>
    obtain ⟨root, key⟩ := l
    rw [location_fileName h]
    cases root <;> simp

/-- `hklm\a` is read and comes back as itself, and `HKU\a` comes back below the local machine. -/
theorem paths_round_users : Locale asciiLower ∧
    location asciiLower (wide ['h', 'k', 'l', 'm', '\\', 'a']) = some ⟨.localMachine, wide ['a']⟩ ∧
    ¬location asciiLower (fileName (location asciiLower (wide ['H', 'K', 'U', '\\', 'a']))) =
      location asciiLower (wide ['H', 'K', 'U', '\\', 'a']) :=
  have h : Locale asciiLower := fun _ _ => rfl
  ⟨h, by decide, fun he => by
    have hr := (paths_round h (wide ['H', 'K', 'U', '\\', 'a'])).2.mp he
    exact absurd (hr ⟨.users, wide ['a']⟩ (by decide)) (by decide)⟩

end Grammar

end KernelLib.RegistryPaths
