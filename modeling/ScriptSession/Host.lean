import ScriptSession.FileTree
/-!
What a session finds outside itself: a tree of files, and programs that can be run.
-/
namespace ScriptSession

/-- How a program ended. -/
inductive ExitStatus
  | code (n : Nat)
  | signal (n : Nat) (name : String)
deriving DecidableEq, Repr

namespace ExitStatus

def isSuccess (s : ExitStatus) : Bool :=
  s = code 0

def display : ExitStatus → String
  | code n => s!"exit status: {n}"
  | signal n name => s!"signal: {n} ({name})"

end ExitStatus

/-- A program that has ended, with the bytes it wrote and the files as it left them. -/
structure Finished where
  status : ExitStatus
  stdout : ByteArray
  stderr : ByteArray
  files : FileTree

/-- What was written, where it is text; bytes that are none count as nothing written. -/
def Finished.text (bytes : ByteArray) : String :=
  (String.fromUTF8? bytes).getD ""

/-- Runs a program with arguments over a tree of files, or says why it cannot be started. -/
abbrev Tools := FileTree → String → List String → Except ReadError Finished

structure Host where
  files : FileTree
  tools : Tools

/-- A host with the same programs and other files. -/
def Host.withFiles (h : Host) (files : FileTree) : Host :=
  { h with files }

end ScriptSession
