import ScriptSession.Host.Octets
/-!
Scripts of the shell: words with what is put into them, and commands.
-/
namespace ScriptSession.Shell

/-- What happens where a parameter has no value, or an empty one. -/
inductive Fallback
  /-- The word stands for it. -/
  | default
  /-- The word becomes its value. -/
  | assign
  /-- The script ends with the word as its message. -/
  | fail
  /-- The word stands for it where it does have a value. -/
  | instead
deriving DecidableEq, Repr

mutual

/-- A piece of a word. What is quoted neither parts into fields nor stands for names of files. -/
inductive Piece
  | text (s : Octets) (quoted : Bool)
  | parameter (name : Octets) (use : Use) (quoted : Bool)
  | output (script : List Command) (quoted : Bool)
  | arithmetic (expression : List Piece) (quoted : Bool)

/-- What is made of the value of a parameter. -/
inductive Use
  | value
  | length
  | fallback (kind : Fallback) (emptyToo : Bool) (word : List Piece)
  | trim (atEnd longest : Bool) (pattern : List Piece)
  /-- Something that has no meaning, which shows only when it is used. -/
  | bad

/-- Where a stream leads. -/
inductive Target
  | read (file : List Piece)
  | write (file : List Piece)
  | append (file : List Piece)
  | readWrite (file : List Piece)
  | duplicate (stream : List Piece)
  /-- A text that the script itself holds. -/
  | document (number : Nat)

inductive Command
  | simple (line : Nat) (assignments : List (Octets × List Piece)) (words : List (List Piece))
      (redirects : List (Nat × Target))
  | pipeline (parts : List Command)
  | negation (c : Command)
  | both (first second : Command)
  | either (first second : Command)
  | background (c : Command)
  | subshell (body : List Command)
  | group (body : List Command)
  | conditional (branches : List (List Command × List Command)) (otherwise : List Command)
  | loop (negated : Bool) (condition body : List Command)
  | forEach (line : Nat) (name : Octets) (words : Option (List (List Piece))) (body : List Command)
  | choice (line : Nat) (word : List Piece) (cases : List (List (List Piece) × List Command))
  | function (name : Octets) (body : Command)
  | redirected (line : Nat) (c : Command) (redirects : List (Nat × Target))

end

abbrev Word := List Piece

abbrev Redirect := Nat × Target

/-- Whether a character may start a name. -/
def isNameStart (c : Char) : Bool :=
  c.isAlpha || c = '_'

def isNameChar (c : Char) : Bool :=
  c.isAlphanum || c = '_'

def isName (cs : Octets) : Bool :=
  cs.head?.any isNameStart && cs.all isNameChar

end ScriptSession.Shell
