import Myos.Fs.Resolve

namespace Myos.User
open Myos.Sec Myos.Task.Ns Myos.Fs

def NS_SPEC_MAX : Nat := 4096

def isWhitespace (c : Char) : Bool :=
  let n := c.toNat
  (0x09 ≤ n && n ≤ 0x0d) || n == 0x20 || n == 0x85 || n == 0xa0 || n == 0x1680 || (0x2000 ≤ n && n ≤ 0x200a) ||
    n == 0x2028 || n == 0x2029 || n == 0x202f || n == 0x205f || n == 0x3000

def byteLen (text : List Char) : Nat := (text.map Char.utf8Size).sum

def utf8 (text : List Char) : List UInt8 := text.flatMap String.utf8EncodeChar

def trim (line : List Char) : List Char :=
  ((line.dropWhile isWhitespace).reverse.dropWhile isWhitespace).reverse

def splitWhitespace (line : List Char) : List (List Char) := (line.splitOnP isWhitespace).filter fun word => word ≠ []

def rightNamed (name : List Char) : Option Rights :=
  ([("read", Rights.READ), ("write", Rights.WRITE), ("append", Rights.APPEND), ("create", Rights.CREATE),
    ("remove", Rights.REMOVE), ("exec", Rights.EXEC), ("setattr", 64), ("mount", 128), ("signal", 256),
    ("all", Rights.ALL)].find? fun entry => entry.1.toList == name).map Prod.snd

def parseRights (text : List Char) : Option Rights :=
  ((text.splitOnP fun c => c == ',' || c == ' ' || (9 ≤ c.toNat && c.toNat ≤ 13 && c.toNat != 11)).filter fun word =>
    word ≠ []).foldlM
    (fun r word => (rightNamed word).map (r ||| ·)) Rights.NONE

variable (v : View)

/-- One line of a specification: the source is named as the caller does now, with no more rights than the
caller has there. -/
def bindLine (line : List Char) : Option Binding :=
  match splitWhitespace line with
  | target :: source :: rest => do
    let rights ← parseRights (rest.headD "all".toList)
    let target ← resolveAgainstCwd [] (utf8 target)
    let real ← v.resolveUserPath (utf8 source)
    if real.synthetic || (v.stat real).isNone then none
    else some ⟨target, real.comps, rights &&& nsRights v.ns real.comps⟩
  | _ => none

def specLines (spec : List Char) : List (List Char) := ((spec.splitOn '\n').map trim).filter fun line => line ≠ []

def sysNs (spec : List Char) : Option Namespace :=
  if byteLen spec = 0 ∨ NS_SPEC_MAX < byteLen spec then none
  else ((specLines spec).mapM (bindLine v)).map (⟨·⟩)

end Myos.User
