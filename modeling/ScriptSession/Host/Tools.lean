import ScriptSession.Host
import ScriptSession.Host.Sed.Request
/-!
A handful of programs as functions of a tree of files, what they read and their arguments.

With the shell, the stream editor, the regular expressions and the file name patterns they stand in
for the outside programs of a build, for the runs of `ScriptSession.Main`, the one module that
imports any of them. Everything else takes the field `tools` of a `Host` as it comes, so what is
proved of sessions holds whatever the outside programs do.
-/
namespace ScriptSession

/-- The streams that a program writes to. -/
inductive Stream
  | output | error
deriving DecidableEq, Repr

/-- A program that ended with a code. -/
structure Ran where
  code : Nat
  /-- What it wrote, in order. -/
  written : List (Stream × Octets)
  /-- What it left of its input. -/
  stdin : Octets
  files : FileTree

namespace Ran

/-- What was written to a stream. -/
def text (r : Ran) (stream : Stream) : Octets :=
  r.written.flatMap fun (s, text) => if s = stream then text else []

def finished (r : Ran) : Finished :=
  ⟨.code r.code, Octets.toBytes (r.text .output), Octets.toBytes (r.text .error), r.files⟩

end Ran

namespace Tools

/-- A program as a function of the files, its input and its arguments. -/
abbrev Program := FileTree → Octets → List Octets → Ran

/-- Ends with a code. -/
def ending (code : Nat) : Program := fun files stdin _ =>
  ⟨code, [], stdin, files⟩

/-- The character of the digits at the front of a text, in a base. -/
def numbered (base most : Nat) (cs : Octets) : Char × Octets :=
  let (n, _, rest) := Octets.readNumber base most 0 0 cs
  (Char.ofNat (n % 256), rest)

/-- Replaces escapes, of which only some programs know `\x`. Says whether `\c` ended the text.
`fuel` is more than the length of the text. -/
def unescape (knowsX : Bool) : Nat → Octets → Octets × Bool
  | fuel + 1, '\\' :: c :: cs =>
    let put (d : Char) (rest : Octets) :=
      let (text, stopped) := unescape knowsX fuel rest
      (d :: text, stopped)
    match c with
    | 'a' => put '\x07' cs
    | 'b' => put '\x08' cs
    | 'c' => ([], true)
    | 'f' => put '\x0c' cs
    | 'n' => put '\n' cs
    | 'r' => put '\r' cs
    | 't' => put '\t' cs
    | 'v' => put '\x0b' cs
    | '\\' => put '\\' cs
    | '0' =>
      let (d, rest) := numbered 8 3 cs
      put d rest
    | _ =>
      if c = 'e' then put '\x1b' cs
      else if knowsX ∧ c = 'x' ∧ (cs.head?.bind (Octets.digit? 16)).isSome then
        let (d, rest) := numbered 16 2 cs
        put d rest
      else if '1' ≤ c ∧ c ≤ '7' then
        let (d, rest) := numbered 8 3 (c :: cs)
        put d rest
      else
        let (text, stopped) := unescape knowsX fuel cs
        ('\\' :: c :: text, stopped)
  | fuel + 1, c :: cs =>
    let (text, stopped) := unescape knowsX fuel cs
    (c :: text, stopped)
  | _, cs => (cs, false)

/-- Writes the arguments with blanks between them. The options before them, in any number, are `-n`
for no line end and `-e` and `-E` for escapes or none. -/
def echo : Program := fun files stdin args =>
  let isOption (arg : Octets) : Bool :=
    arg.head? = some '-' && arg.length ≠ 1 && arg.tail.all fun c => c ∈ ['n', 'e', 'E']
  let options := (args.takeWhile isOption).flatten
  let text := [' '].intercalate (args.dropWhile isOption)
  let escapes := options.reverse.find? fun c => c = 'e' ∨ c = 'E'
  let (text, stopped) :=
    if escapes = some 'e' then unescape true (text.length + 1) text else (text, false)
  let text := if stopped ∨ 'n' ∈ options then text else text ++ ['\n']
  ⟨0, [(.output, text)], stdin, files⟩

/-- The escape of a character that cannot be shown. -/
def hiddenEscape? (c : Char) : Option Octets :=
  match c with
  | '\x07' => some ['\\', 'a']
  | '\x08' => some ['\\', 'b']
  | '\t' => some ['\\', 't']
  | '\n' => some ['\\', 'n']
  | '\x0b' => some ['\\', 'v']
  | '\x0c' => some ['\\', 'f']
  | '\r' => some ['\\', 'r']
  | c =>
    if ' ' ≤ c ∧ c ≤ '~' then none
    else
      let n := c.toNat
      some ('\\' :: [n / 64, n / 8 % 8, n % 8].map fun d => Char.ofNat ('0'.toNat + d))

/-- A name inside single quotes; what cannot be shown stands between quotes of its own, in which
`escaping` says that the end is. -/
def singleQuoted (escaping : Bool) : Octets → Octets
  | [] => ['\'']
  | '\'' :: cs => ['\'', '\\', '\'', '\''] ++ singleQuoted false cs
  | c :: cs =>
    match hiddenEscape? c with
    | some text =>
      (if escaping then [] else ['\'', '$', '\'']) ++ text ++ singleQuoted true cs
    | none => (if escaping then ['\'', '\''] else []) ++ c :: singleQuoted false cs

/-- A name of a file as it would have to be typed: in quotes if some character has a meaning to the
shell, or parts the name from what is said about it. -/
def quotedName (name : Octets) : Octets :=
  let special (c : Char) : Bool :=
    "!\"$&()*;<=>?[\\^\x60|".toList.contains c || (hiddenEscape? c).isSome
  let quoted := name = [] || name.any (fun c => special c || c = ' ' || c = '\'' || c = ':') ||
    name.head? = some '#' || name.head? = some '~' || name = ['\x7b'] || name = ['\x7d']
  if !quoted then name
  else if '\'' ∈ name ∧ !name.any special then '"' :: name ++ ['"']
  else '\'' :: singleQuoted false name

inductive CatFlag
  | numbers | filledNumbers | squeeze | ends | tabs | visible | all | visibleEnds | visibleTabs
  | accepted
deriving DecidableEq

def catFlags : List (Flag CatFlag) :=
  [{ flag := .filledNumbers, letters := ['b'], names := ["number-nonblank"] },
   { flag := .numbers, letters := ['n'], names := ["number"] },
   { flag := .squeeze, letters := ['s'], names := ["squeeze-blank"] },
   { flag := .visible, letters := ['v'], names := ["show-nonprinting"] },
   { flag := .ends, letters := ['E'], names := ["show-ends"] },
   { flag := .tabs, letters := ['T'], names := ["show-tabs"] },
   { flag := .all, letters := ['A'], names := ["show-all"] },
   { flag := .visibleEnds, letters := ['e'] },
   { flag := .visibleTabs, letters := ['t'] },
   { flag := .accepted, letters := ['u'] }]

/-- How `cat` shows what it copies. -/
structure CatStyle where
  numbers : Bool
  onlyFilled : Bool
  squeeze : Bool
  ends : Bool
  tabs : Bool
  visible : Bool

def CatStyle.ofFlags (flags : List CatFlag) : CatStyle where
  numbers := flags.any (· = .numbers) || flags.any (· = .filledNumbers)
  onlyFilled := flags.any (· = .filledNumbers)
  squeeze := flags.any (· = .squeeze)
  ends := flags.any fun f => f = .ends ∨ f = .all ∨ f = .visibleEnds
  tabs := flags.any fun f => f = .tabs ∨ f = .all ∨ f = .visibleTabs
  visible := flags.any fun f => f = .visible ∨ f = .all ∨ f = .visibleEnds ∨ f = .visibleTabs

/-- A character that would not be seen, written out. -/
def CatStyle.shown (style : CatStyle) (c : Char) : Octets :=
  let caret (n : Nat) : Octets :=
    if n < 32 then ['^', Char.ofNat (n + 64)]
    else if n = 127 then ['^', '?']
    else [Char.ofNat n]
  if c = '\t' then (if style.tabs then ['^', 'I'] else [c])
  else if !style.visible then [c]
  else if c.toNat < 128 then caret c.toNat
  else 'M' :: '-' :: caret (c.toNat - 128)

/-- Where a copy stands: the number of the last line, how many empty lines came last, and whether
a line was begun. -/
structure CatState where
  line : Nat := 0
  empty : Nat := 0
  begun : Bool := false

/-- Copies the lines of a text. -/
def CatStyle.copy (style : CatStyle) (st : CatState) (text : Octets) : CatState × Octets :=
  let (st, done) := (Sed.cutLines '\n' text).foldl (fun (st, done) (line, closed) =>
    let isEmpty := line = [] && !st.begun
    let empty := if isEmpty then st.empty + 1 else 0
    if style.squeeze && isEmpty && 1 < empty then ({ st with empty }, done)
    else
      let counted := style.numbers && !st.begun && !(style.onlyFilled && isEmpty)
      let number := if counted then st.line + 1 else st.line
      let digits := (toString number).toList
      let start := if counted then List.replicate (6 - digits.length) ' ' ++ digits ++ ['\t']
        else []
      let stop := if !closed then [] else if style.ends then ['$', '\n'] else ['\n']
      ({ line := number, empty, begun := !closed },
       (start ++ line.flatMap style.shown ++ stop) :: done)) (st, [])
  (st, done.reverse.flatten)

/-- Writes files one after another, or what it reads where no file or a dash is named. A file that
cannot be read is named on the error stream. -/
def cat : Program := fun files stdin args =>
  let read := Argument.read catFlags none args
  match read.findSome? (fun | .fault message => some message | _ => none) with
  | some message =>
    ⟨1, [(.error, Octets.ofString
      s!"cat: {message}\nTry 'cat --help' for more information.\n")], stdin, files⟩
  | none =>
    let style := CatStyle.ofFlags (read.filterMap fun | .flag f _ => some f | _ => none)
    let operands := read.filterMap fun | .operand text => some text | _ => none
    let names : List Octets := if operands = [] then [['-']] else operands
    let (ran, _) := names.foldl (fun (r, st) name =>
      let content := if name = ['-'] then Except.ok r.stdin else Sed.contentOf files name
      match content with
      | .ok text =>
        let (st, copied) := style.copy st text
        ({ r with
          written := r.written ++ [(.output, copied)]
          stdin := if name = ['-'] then [] else r.stdin }, st)
      | .error cause =>
        let message := Octets.ofString "cat: " ++ quotedName name ++
          Octets.ofString s!": {Sed.reason cause}\n"
        ({ r with code := 1, written := r.written ++ [(.error, message)] }, st))
      ((⟨0, [], stdin, files⟩ : Ran), ({} : CatState))
    ran

/-- Edits files, or what it reads where no file is named. What it prints comes after what it says
about errors. -/
def sed (execute : Sed.EditM.Execute) : Program := fun files stdin args =>
  let done := Sed.run execute files stdin args
  ⟨done.status, [(.error, done.stderr), (.output, done.stdout)], done.stdin, done.files⟩

/-- The program of a name, except for the shell. -/
def program? (execute : Sed.EditM.Execute) (name : Octets) : Option Program :=
  match String.ofList name with
  | "echo" => some echo
  | "cat" => some cat
  | "true" => some (ending 0)
  | "false" => some (ending 1)
  | "sed" => some (sed execute)
  | _ => none

end Tools
end ScriptSession
