import Mathlib.Algebra.GroupWithZero.Nat

/-! What the kernel's modules share: bytes and words of the machine, their bounds, the page, the tables' sizes. -/

namespace Myos

abbrev Byte := BitVec 8
abbrev Bytes := List Byte
abbrev Word := BitVec 64

def U16_MAX : Nat := 2 ^ 16 - 1
def U32_MAX : Nat := 2 ^ 32 - 1
def U64_MAX : Nat := 2 ^ 64 - 1
def USIZE_MAX : Nat := 2 ^ 64 - 1

def PAGE : Nat := 4096
def MAX_TASKS : Nat := 512
def NO_OWNER : Nat := 2 ^ 32 - 1

def LF : UInt8 := 10
def CR : UInt8 := 13

def saturatingAdd (a b : Nat) : Nat := min (a + b) U64_MAX

def fromLe : Bytes → Nat
  | [] => 0
  | b :: rest => b.toNat + 256 * fromLe rest

theorem fromLe_lt (s : Bytes) : fromLe s < 256 ^ s.length := by
  induction s with
  | nil => exact Nat.one_pos
  | cons c rest ih =>
    rw [fromLe, List.length_cons, pow_succ]
    omega

end Myos
