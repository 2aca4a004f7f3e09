import KernelLib.StringCompare

/-!
# Searching in a string

The tests for a text at the start or at the end of a string and the searches
of `skl::string`, each plain and up to case, and the hash of a string. The two
of a pair have the same loop over a mapping of characters, but for the
searches for a text: the plain ones compare bytes and the others characters.
-/

namespace KernelLib.StringSearch

open WideMemory Word32 CountedStrings StringCompare

section Tests

variable (fold : WChar → WChar)

/-- The loop over so many characters of two texts, up to the first that differ. -/
def agreeLoop : List WChar → List WChar → ℕ → Option Bool
  | _, _, 0 => some true
  | a :: str, b :: start, n + 1 =>
    if fold a ≠ fold b then some false else agreeLoop str start n
  | _, _, _ + 1 => none

/-- The static prefix tests. -/
def startwithBy (str : Option (List WChar)) (strLen : ℕ) (start : Option (List WChar)) (sLen : ℕ) :
    Option Bool :=
  match str, start with
  | some str, some start => if sLen > strLen then some false else agreeLoop fold str start sLen
  | _, _ => some false

/-- The static suffix tests. -/
def endwithBy (str : Option (List WChar)) (strLen : ℕ) (start : Option (List WChar))
    (startLen : ℕ) : Option Bool :=
  match str, start with
  | some str, some start =>
    if startLen > strLen then some false
    else agreeLoop fold (str.drop (strLen - startLen)) start startLen
  | _, _ => some false

/-- The loop of the prefix tests that are members: it ends at a NUL, too. -/
def startLoop : List WChar → ℕ → List WChar → ℕ → Option Bool
  | _, _, _, 0 => some true
  | _, _, [], _ + 1 => none
  | _, 0, c :: _, _ + 1 => some (c == 0)
  | buf, melen + 1, c :: start, strLen + 1 =>
    if c = 0 then some true
    else match buf with
      | [] => none
      | a :: buf => if fold a ≠ fold c then some false else startLoop buf melen start strLen

/-- The prefix tests that are members. -/
def memberStartwithBy (s : SklString) (start : Option (List WChar)) (strLen : ℕ) : Option Bool :=
  match start with
  | none => some false
  | some start => startLoop fold s.unicodeStr.memory (s.unicodeStr.length / 2) start strLen

/-- The suffix tests that are members. -/
def memberEndwithBy (t : SklString) (s : Option (List WChar)) (strLen : ℕ) : Option Bool :=
  match s with
  | none => some false
  | some s => do
    let melen := t.unicodeStr.length / 2
    let strLen ← if strLen = npos then (rawlen s).map u32 else some strLen
    if strLen > melen then return false
    agreeLoop fold (t.unicodeStr.memory.drop (melen - strLen)) s strLen

end Tests

/-- A static test, of a text with its length against another one. -/
abbrev StaticTest := Option (List WChar) → ℕ → Option (List WChar) → ℕ → Option Bool

/-- The friend for two strings. -/
def ofStrings (test : StaticTest) (s start : SklString) : Option Bool :=
  test s.unicodeStr.buffer (s.unicodeStr.length / 2) start.unicodeStr.buffer
    (start.unicodeStr.length / 2)

/-- The friend for a `UNICODE_STRING` and a string. -/
def ofUnicodeString (test : StaticTest) (s : UnicodeString) (start : SklString) : Option Bool :=
  test s.buffer (s.length / 2) start.unicodeStr.buffer (start.unicodeStr.length / 2)

/-- The friend for a NUL-terminated text and a string. -/
def ofWchars (test : StaticTest) (s : List WChar) (start : SklString) : Option Bool := do
  let rawLen ← rawlen s
  test (some s) (u32 rawLen) start.unicodeStr.buffer (start.unicodeStr.length / 2)

/-- The member for a `UNICODE_STRING`, over that for a text with its length. -/
def memberOfUnicode (test : SklString → Option (List WChar) → ℕ → Option Bool) (s : SklString)
    (start : UnicodeString) : Option Bool :=
  if start.length > s.unicodeStr.length then some false
  else test s start.buffer (start.length / 2)

/-- `startwith(const wchar_t*, unsigned, const wchar_t*, unsigned)`. -/
def startwith : StaticTest := startwithBy id

/-- `istartwith(const wchar_t*, unsigned, const wchar_t*, unsigned)`. -/
def istartwith : StaticTest := startwithBy tolower

/-- `endwith(const wchar_t*, unsigned, const wchar_t*, unsigned)`. -/
def endwith : StaticTest := endwithBy id

/-- `iendwith(const wchar_t*, unsigned, const wchar_t*, unsigned)`. -/
def iendwith : StaticTest := endwithBy tolower

namespace SklString

/-- `startwith(const wchar_t*, unsigned)`. -/
def startwith : SklString → Option (List WChar) → ℕ → Option Bool := memberStartwithBy id

/-- `istartwith(const wchar_t*, unsigned)`. -/
def istartwith : SklString → Option (List WChar) → ℕ → Option Bool := memberStartwithBy tolower

/-- `endwith(const wchar_t*, unsigned)`. -/
def endwith : SklString → Option (List WChar) → ℕ → Option Bool := memberEndwithBy id

/-- `iendwith(const wchar_t*, unsigned)`. -/
def iendwith : SklString → Option (List WChar) → ℕ → Option Bool := memberEndwithBy tolower

end SklString

section Searches

/-- The loop of the searches for a text from a position on, for so many rounds at
most; the test is made on what lies from the position on. -/
def findLoop (hit : List WChar → Option Bool) (buf : List WChar) (thislen matchlen : ℕ) :
    ℕ → ℕ → Option ℕ
  | 0, _ => none
  | fuel + 1, pos =>
    if u32 (pos + matchlen) ≤ thislen then do
      let found ← hit (buf.drop pos)
      if found then return pos
      findLoop hit buf thislen matchlen fuel (u32 (pos + 1))
    else some npos

/-- The test of `find` and `rfind`. -/
def bytesHit (str : List WChar) (matchlen : ℕ) (buf : List WChar) : Option Bool :=
  let memmatchLen := u32 (2 * matchlen)
  (compareMemory buf str memmatchLen).map (· == memmatchLen)

/-- The test of `ifind` and `rifind`. -/
def charsHit (str : List WChar) (matchlen : ℕ) (buf : List WChar) : Option Bool :=
  (icomparemem buf str matchlen).map (· == matchlen)

/-- `find` and `ifind` of a text, over their tests. Each round looks further, so
that there are no more than characters. -/
def findBy (hit : List WChar → ℕ → List WChar → Option Bool) (s : SklString) (str : List WChar)
    (matchlen pos : ℕ) : Option ℕ :=
  if matchlen < 1 then some npos
  else do
    let matchlen ← if matchlen = npos then (rawlen str).map u32 else some matchlen
    findLoop (hit str matchlen) s.unicodeStr.memory s.length matchlen (s.length + 2) pos

/-- The loop of the searches for a text from the end on. -/
def rfindLoop (hit : List WChar → Option Bool) (buf : List WChar) : ℕ → Option ℕ
  | 0 => some npos
  | pos + 1 => do
    let found ← hit (buf.drop (pos + 1))
    if found then return pos + 1
    rfindLoop hit buf pos

/-- `rfind` and `rifind` of a text, over their tests. -/
def rfindBy (hit : List WChar → ℕ → List WChar → Option Bool) (s : SklString) (str : List WChar)
    (matchlen : ℕ) : Option ℕ := do
  let matchlen ← if matchlen = npos then (rawlen str).map u32 else some matchlen
  if matchlen > s.length then return npos
  rfindLoop (hit str matchlen) s.unicodeStr.memory (s.length - matchlen)

/-- The loop of the searches for a character, over so many positions. -/
def findChrLoop (fold : WChar → WChar) (buf : List WChar) (chr : WChar) : ℕ → ℕ → Option ℕ
  | 0, _ => some npos
  | n + 1, pos => do
    let c ← buf[pos]?
    if chr = fold c then return pos
    findChrLoop fold buf chr n (pos + 1)

/-- The loop of the searches for a character from the end on. -/
def rfindChrLoop (fold : WChar → WChar) (buf : List WChar) (chr : WChar) : ℕ → Option ℕ
  | 0 => some npos
  | pos + 1 => do
    let c ← buf[pos]?
    if chr = fold c then return pos
    rfindChrLoop fold buf chr pos

/-- `find` and `ifind` of a character. -/
def findChrBy (fold : WChar → WChar) (s : SklString) (chr : WChar) (pos : ℕ) : Option ℕ :=
  findChrLoop fold s.unicodeStr.memory (fold chr) (s.length - pos) pos

/-- `rfind` and `rifind` of a character. -/
def rfindChrBy (fold : WChar → WChar) (s : SklString) (chr : WChar) : Option ℕ :=
  rfindChrLoop fold s.unicodeStr.memory (fold chr) s.length

namespace SklString

/-- `find(const wchar_t*, unsigned, unsigned)`. -/
def find : SklString → List WChar → ℕ → ℕ → Option ℕ := findBy bytesHit

/-- `ifind(const wchar_t*, unsigned, unsigned)`. -/
def ifind : SklString → List WChar → ℕ → ℕ → Option ℕ := findBy charsHit

/-- `find(wchar_t, unsigned)`. -/
def findChr : SklString → WChar → ℕ → Option ℕ := findChrBy id

/-- `ifind(wchar_t, unsigned)`. -/
def ifindChr : SklString → WChar → ℕ → Option ℕ := findChrBy tolower

/-- `rfind(const wchar_t*, unsigned)`. -/
def rfind : SklString → List WChar → ℕ → Option ℕ := rfindBy bytesHit

/-- `rifind(const wchar_t*, unsigned)`. -/
def rifind : SklString → List WChar → ℕ → Option ℕ := rfindBy charsHit

/-- `rfind(wchar_t)`. -/
def rfindChr : SklString → WChar → Option ℕ := rfindChrBy id

/-- `rifind(wchar_t)`. -/
def rifindChr : SklString → WChar → Option ℕ := rfindChrBy tolower

end SklString

end Searches

section Hash

/-- The loop of both hashes. -/
def hashLoop (lowercase : Bool) : List WChar → ℕ → UInt64 → Option UInt64
  | _, 0, hash => some hash
  | [], _ + 1, _ => none
  | c :: str, wlen + 1, hash =>
    let v := if lowercase then tolower c else c
    hashLoop lowercase str wlen (hash * 131 + v.toUInt64)

/-- `BKDRHash(const UNICODE_STRING&, bool)`. -/
def bkdrHashUnicode (str : UnicodeString) (lowercase : Bool) : Option UInt64 :=
  hashLoop lowercase str.memory (str.length / 2) 0

/-- `BKDRHash(const wchar_t*, size_t, bool)`. -/
def bkdrHash (str : List WChar) (wlen : ℕ) (lowercase : Bool) : Option UInt64 :=
  hashLoop lowercase str wlen 0

end Hash

end KernelLib.StringSearch
