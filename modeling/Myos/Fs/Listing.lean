import Myos.Sec.Policy

namespace Myos.Fs
open Myos.Sec (Name)

def NL : UInt8 := 10

def writeNames (cap : Nat) : List UInt8 → List Name → List UInt8
  | out, [] => out
  | out, name :: rest =>
    if cap < out.length + (name.length + 1) then out else writeNames cap (out ++ (name ++ [NL])) rest

def keepLine (line : List UInt8) : List UInt8 := if 0 ∈ line then [] else line

def dropHidden (line : List UInt8) : List UInt8 → List UInt8
  | [] => keepLine line
  | b :: rest => if b = NL then keepLine (line ++ [b]) ++ dropHidden [] rest else dropHidden (line ++ [b]) rest

def withoutHidden (out : List UInt8) : List UInt8 := if 0 ∈ out then dropHidden [] out else out

def bufContainsEntry (out : List UInt8) (child : Name) : Bool := (out.splitOn NL).contains child

/-- Adds the names that are no line of the listing yet; at one that does not fit, some callers stop and
others go on with the next. -/
def mergeNames (stops : Bool) (cap : Nat) : List UInt8 → List Name → List UInt8
  | out, [] => out
  | out, name :: rest =>
    if bufContainsEntry out name then mergeNames stops cap out rest
    else if cap < out.length + (name.length + 1) then if stops then out else mergeNames stops cap out rest
    else mergeNames stops cap (out ++ (name ++ [NL])) rest

def addNames (cap : Nat) (out : List UInt8) (names : List Name) : List UInt8 := mergeNames true cap out names

def readNames (out : List UInt8) : List Name := (out.splitOn NL).filter fun name => name ≠ []

def isCont (b : UInt8) : Bool := 0x80 ≤ b && b ≤ 0xbf

def isUtf8 : List UInt8 → Bool
  | [] => true
  | a :: rest =>
    if a < 0x80 then isUtf8 rest
    else match rest with
      | [] => false
      | b :: rest =>
        if 0xc2 ≤ a && a ≤ 0xdf then isCont b && isUtf8 rest
        else match rest with
          | [] => false
          | c :: rest =>
            if 0xe0 ≤ a && a ≤ 0xef then
              (if a = 0xe0 then 0xa0 ≤ b && b ≤ 0xbf else if a = 0xed then 0x80 ≤ b && b ≤ 0x9f
                else isCont b) && isCont c && isUtf8 rest
            else match rest with
              | [] => false
              | d :: rest =>
                0xf0 ≤ a && a ≤ 0xf4 &&
                  (if a = 0xf0 then 0x90 ≤ b && b ≤ 0xbf else if a = 0xf4 then 0x80 ≤ b && b ≤ 0x8f
                    else isCont b) && isCont c && isCont d && isUtf8 rest

end Myos.Fs
