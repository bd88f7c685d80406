import Mathlib.Data.List.Basic

/-! Paths and what is known about the file at a path. -/

namespace Dupa

/-- A normalised path, by its elements; an absolute one starts with `"/"`. -/
abbrev Path := List String

def Path.parentPath (p : Path) : Path := p.dropLast

def Path.filename (p : Path) : String := p.getLast?.getD ""

/-- The path as a string. -/
def Path.native : Path → String
  | "/" :: rest => "/" ++ "/".intercalate rest
  | path => "/".intercalate path

/-- `lhs /= rhs`: a separator is put between the two unless one is there or `lhs` is empty. -/
def Path.append (lhs rhs : String) : String :=
  if lhs = "" ∨ lhs.toList.getLast? = some '/' ∨ rhs = "" ∨ rhs.toList.head? = some '/' then
    lhs ++ rhs
  else lhs ++ "/" ++ rhs

abbrev Cksum := UInt64

structure FileInfo where
  size : Int64
  mtime : Int64
  sum : Cksum
  deriving DecidableEq

namespace Path

variable {p : Path} {name : String}

@[simp] theorem parentPath_append (p : Path) (name : String) :
    parentPath (p ++ [name]) = p := by simp [parentPath]

@[simp] theorem filename_append (p : Path) (name : String) :
    filename (p ++ [name]) = name := by simp [filename]

/-- A path is its parent path and its file name. -/
theorem parentPath_filename (h : p ≠ []) : p.parentPath ++ [p.filename] = p := by
  obtain rfl | ⟨q, name, rfl⟩ := List.eq_nil_or_concat' p
  · exact absurd rfl h
  · simp

end Path

end Dupa
