import GingerOs.Machine

/-! `vfs_parse_path` of `vfs.c` with the tokeniser of `lib/string.c`. A C string is the
list of its bytes without the final NUL; the buffer for the result is a list of the size
that was allocated, and a store outside of it is `wild`. Allocations succeed, and the
byte before the tokeniser's buffer is no slash. -/

namespace GingerOs.Vfs
open Links

def FNAME_MAX : Nat := 255

def slash : Byte := 0x2F
def dot : Byte := 0x2E

/-- A byte `vfs_path_syntax` refuses. A `char` is signed. -/
def badByte (c : Byte) : Bool :=
  decide (c.toInt < 0x20) || c == 0x5C || c == 0x7F || c == 0x81 || c == 0x8D || c == 0x9D || c == 0xA0 || c == 0xAD

def vfsPathSyntax (path : List Byte) : Int :=
  if path = [] then -ENOTNAM else if path.any badByte then -ENOTNAM else 0

section Tokens
variable (c : Byte)

/-- The trailing separators are overwritten. -/
def stripTrailing (s : List Byte) : List Byte := (s.reverse.dropWhile (· == c)).reverse

def grabtok (s : List Byte) : List Byte := s.takeWhile (· != c)

/-- The loop of `tokenize`; every turn uses up a byte. -/
def tokenLoop : (fuel : Nat) → List Byte → List (List Byte)
  | 0, _ => []
  | fuel + 1, s =>
    if s = [] then []
    else
      let rest := s.dropWhile (· == c)
      grabtok c rest :: tokenLoop fuel (rest.drop (grabtok c rest).length)

def tokenize (s : List Byte) : List (List Byte) := tokenLoop c s.length (stripTrailing c s)

end Tokens

def canonicalizePath (path : List Byte) : List (List Byte) := tokenize slash path

/-- The components kept so far in `tmp_path`, and the length of the path they make up. -/
structure Walk where
  stack : List (List Byte) := []
  pathlen : Nat := 1
deriving DecidableEq, Repr

def walkToken (walk : Walk) (token : List Byte) : Walk :=
  if token = [dot] then walk
  else if token = [dot, dot] then
    match walk.stack.getLast? with
    | none => walk
    | some last => { stack := walk.stack.dropLast, pathlen := walk.pathlen - (last.length + 1) }
  else { stack := walk.stack ++ [token], pathlen := walk.pathlen + (token.length + 1) }

section Buffer

def store (buf : List Byte) (j : Nat) (c : Byte) : Except Stop (List Byte) :=
  if j < buf.length then .ok (buf.set j c) else .error .wild

/-- `strncpy` with the length of the source. -/
def strncpy (buf : List Byte) (j : Nat) : List Byte → Except Stop (List Byte)
  | [] => .ok buf
  | c :: rest => store buf j c >>= fun buf => strncpy buf (j + 1) rest

def writeTokens (buf : List Byte) (j : Nat) : List (List Byte) → Except Stop (Int × List Byte × Nat)
  | [] => .ok (0, buf, j)
  | token :: tokens => do
    let buf ← store buf j slash
    if token.length > FNAME_MAX then return (-ENAMETOOLONG, buf, j + 1)
    let buf ← strncpy buf (j + 1) token
    writeTokens buf (j + 1 + token.length) tokens

/-- The string is ended, and the root gets its slash. -/
def endPath (buf : List Byte) (j : Nat) : Except Stop (List Byte) := do
  let buf ← store buf j 0
  if buf.head? = some 0 then
    let buf ← store buf j slash
    store buf (j + 1) 0
  else store buf j 0

end Buffer

/-- The directory a path starts from. -/
def startDir (path : List Byte) (cwd : Option (List Byte)) : List Byte :=
  if path.head? = some slash then [slash] else cwd.getD [slash]

def absDir (cwd : List Byte) : List Byte := if cwd.head? = some slash then cwd else slash :: cwd

/-- The part of `vfs_parse_path` that builds the result, in a buffer filled with `junk`. -/
def buildPath (junk : Byte) (walk : Walk) : Except Stop (Int × List Byte) := do
  assert (walk.pathlen != 0)
  let buf := List.replicate (if walk.pathlen = 1 then 2 else walk.pathlen) junk
  let (err, buf, j) ← writeTokens buf 0 walk.stack
  if err ≠ 0 then return (err, [])
  return (0, ← endPath buf j)

/-- The error code and, if it is 0, the buffer with the path. -/
def vfsParsePath (junk : Byte) (path : List Byte) (cwd : Option (List Byte)) : Except Stop (Int × List Byte) :=
  if vfsPathSyntax path ≠ 0 then .ok (vfsPathSyntax path, [])
  else if vfsPathSyntax (startDir path cwd) ≠ 0 then .ok (vfsPathSyntax (startDir path cwd), [])
  else
    let parsed := absDir (startDir path cwd) ++ slash :: path
    buildPath junk ((canonicalizePath parsed).foldl walkToken {})

end GingerOs.Vfs
