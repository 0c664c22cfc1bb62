import Emilua.Lua

/-!
The layout of `ipc_actor_message`: an array of 64-bit members, each a double or
a signalling NaN whose mantissa is a tag, followed by the string pool.

The number of members is a build option; the source only asserts that it is
above two, so everything here is stated for any such number.
-/
namespace Emilua.Ipc
open Wire

/-- `EMILUA_CONFIG_IPC_ACTOR_MESSAGE_MAX_MEMBERS_NUMBER` and its static assertion. -/
structure Config where
  maxMembers : Nat
  two_lt : 2 < maxMembers

namespace Config
variable (c : Config)

theorem two_lt_twenty : 2 < 20 := by decide

/-- The default of the build option. -/
def standard : Config := ⟨20, by decide⟩

/-- `sizeof(message.members)`. -/
def membersSize : Nat := 8 * c.maxMembers

/-- `sizeof(message.strbuf)`: a key and a value of 256 bytes for every member. -/
def strbufSize : Nat := c.maxMembers * 512

/-- `sizeof(ipc_actor_message)`. -/
def messageSize : Nat := c.membersSize + c.strbufSize

end Config

def exponentMask : UInt64 := 0x7FF0000000000000
def mantissaMask : UInt64 := 0x000FFFFFFFFFFFFF
def qnanBit : UInt64 := 0x0008000000000000

/-- `ipc_actor_message::kind`. -/
inductive Kind where
  | booleanTrue
  | booleanFalse
  | string
  | fileDescriptor
  | actorAddress
  | nil
deriving DecidableEq, Repr

def Kind.toUInt64 : Kind → UInt64
  | .booleanTrue => 1
  | .booleanFalse => 2
  | .string => 3
  | .fileDescriptor => 4
  | .actorAddress => 5
  | .nil => 6

/-- `EXPONENT_MASK | kind`, the word a sender stores for a tagged member. -/
def Kind.word (k : Kind) : UInt64 := exponentMask ||| k.toUInt64

def isSnan (w : UInt64) : Bool :=
  w &&& exponentMask == exponentMask && w &&& mantissaMask != 0 && w &&& qnanBit == 0

/-- The tag a `switch` on `as_int & MANTISSA_MASK` selects; `none` is its
`default` label. -/
def kindOf (w : UInt64) : Option Kind :=
  let m := w &&& mantissaMask
  if m = 1 then some .booleanTrue
  else if m = 2 then some .booleanFalse
  else if m = 3 then some .string
  else if m = 4 then some .fileDescriptor
  else if m = 5 then some .actorAddress
  else if m = 6 then some .nil
  else none

@[simp] theorem isSnan_word (k : Kind) : isSnan k.word = true := by
  cases k <;> decide

@[simp] theorem kindOf_word (k : Kind) : kindOf k.word = some k := by
  cases k <;> decide

theorem word_injective {k k' : Kind} (h : k.word = k'.word) : k = k' := by
  have := congrArg kindOf h
  simpa using this

theorem ne_word_of_not_snan {w : UInt64} (h : isSnan w = false) (k : Kind) : w ≠ k.word := by
  rintro rfl
  simp at h

end Emilua.Ipc
