import Asper.Event.Log

/-! # Names and paths of the source store

Scopes and objects are named by the host and by content; each has its place below the store root
(`source_paths.c`). `sourceScopePath` and `sourceObjectPath` make the directories on the way.
`scopePathText` and `objectPathText` are the path strings the operating system is handed;
`resolve` says which node such a string names. -/

namespace Asper

open Durable

def scopeChar (b : UInt8) : Bool :=
  (97 ≤ b ∧ b ≤ 122) ∨ (65 ≤ b ∧ b ≤ 90) ∨ (48 ≤ b ∧ b ≤ 57) ∨ b = 95 ∨ b = 45 ∨ b = 46

def sourceScopeValid (scope : Bytes) : Bool :=
  scope ≠ [] ∧ scope.length ≤ 64 ∧ scope.all scopeChar ∧ scope ≠ ascii "." ∧ scope ≠ ascii ".."

def sourceObjectValid (ref : Bytes) : Bool :=
  ref.take 7 = ascii "sha256:" ∧ ref.length = 71 ∧ (ref.drop 7).all isLowerHex

/-! ## Path strings -/

def osPathJoin (a b : Bytes) : Bytes :=
  if a = [] then b
  else if b = [] then a
  else if a.getLast? = some 47 ∨ a.getLast? = some 92 then a ++ b
  else a ++ 47 :: b

/-- One more name on the way. -/
def pushName (p : Path) (name : Bytes) : Path :=
  if name = [] ∨ name = ascii "." then p
  else if name = ascii ".." then p.dropLast
  else p ++ [name]

/-- Walk the names of a path string, which slashes separate; `cur` is the name begun. -/
def resolveFrom (p : Path) (cur : Bytes) : Bytes → Path
  | [] => pushName p cur
  | b :: s => if b = 47 then resolveFrom (pushName p cur) [] s else resolveFrom p (cur ++ [b]) s

/-- The node a path string names. -/
def resolve (s : Bytes) : Path := resolveFrom [] [] s

def scopePathText (root scope name : Bytes) : Bytes :=
  osPathJoin (osPathJoin (osPathJoin root (ascii "scopes")) scope) name

def objectPathText (root ref : Bytes) : Bytes :=
  osPathJoin (osPathJoin root (ascii "objects")) (ref.drop 7 ++ ascii ".bin")

/-! ## Paths below the store root -/

def scopesDir : Path := [ascii "scopes"]

def objectsDir : Path := [ascii "objects"]

/-- The registry of scopes. -/
def scopeIndex : Path := scopesDir ++ [ascii "index.log"]

def scopeDir (scope : Bytes) : Path := scopesDir ++ [scope]

def scopeFile (scope name : Bytes) : Path := scopeDir scope ++ [name]

def objectFile (ref : Bytes) : Path := objectsDir ++ [ref.drop 7 ++ ascii ".bin"]

/-- Run `m` and fail with `e` when it fails. -/
def orFail {α : Type} (m : Io α) (e : Err) : Io α := do
  match ← m.attempt with
  | .ok a => pure a
  | .error _ => Act.fail e

/-- Make the directory of `scope` and name a file in it; `e` is the caller's error for a null
path. -/
def sourceScopePath (scope name : Bytes) (e : Err) : Io Path := do
  orFail (osMkdirP scopesDir) e
  orFail (osMkdirP (scopeDir scope)) e
  pure (scopeFile scope name)

def sourceObjectPath (ref : Bytes) (e : Err) : Io Path := do
  require (sourceObjectValid ref = true) e
  orFail (osMkdirP objectsDir) e
  pure (objectFile ref)

/-- Read a metadata file of at most `limit` bytes, which must be UTF-8 without a NUL. -/
def sourceTextRead (p : Path) (limit : Nat) : Io Bytes := do
  let text ← osBlobOpen p
  require (text.length ≤ limit) .limit
  require (0 ∉ text ∧ utf8Valid text = true) .parse
  pure text

end Asper
