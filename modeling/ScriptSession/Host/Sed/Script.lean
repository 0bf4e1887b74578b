import ScriptSession.Host.Regex
/-!
Scripts of the stream editor: commands with the lines that they are for, and what can be wrong
with the text of a script.
-/
namespace ScriptSession.Sed

/-- A line that a command starts or ends at. No pattern stands for the last one that was used. -/
inductive Place
  | line (n : Nat)
  /-- Every `step`th line from `first` on. -/
  | every (first step : Nat)
  | last
  | matching (p : Option Pattern)

/-- Where a range of lines ends. -/
inductive Stop
  | place (p : Place)
  | after (lines : Nat)
  /-- The next line whose number is a multiple. -/
  | multiple (of : Nat)

/-- Which lines a command is for. -/
inductive Address
  | always
  | one (place : Place)
  | range (start : Place) (stop : Stop)

inductive LetterCase
  | upper | lower
deriving DecidableEq, Repr

/-- How a piece of a replacement is put in: the case of all its letters and of its first one. -/
structure Casing where
  all : Option LetterCase := none
  first : Option LetterCase := none
deriving DecidableEq, Repr

/-- A piece of a replacement: a text and then maybe the text of a group. -/
structure Segment where
  text : Octets
  group : Option Nat
  casing : Casing
deriving DecidableEq, Repr

/-- A substitution: from which match of a line on it replaces, whether it goes on after that one,
whether the result is run as a command, and where it is written if something was replaced. -/
structure Substitution where
  pattern : Option Pattern
  replacement : List Segment
  occurrence : Nat
  everywhere : Bool
  printing : Bool
  evaluated : Bool
  target : Option Octets

/-- When a jump is made: always, if something was replaced, or if nothing was. -/
inductive JumpCondition
  | always | ifReplaced | unlessReplaced
deriving DecidableEq, Repr

/-- Where a text is put. -/
inductive TextPlace
  | after | before | instead
deriving DecidableEq, Repr

inductive Action
  | openBlock
  | closeBlock
  | label (name : Octets)
  | jump (condition : JumpCondition) (label : Octets)
  | text (place : TextPlace) (text : Octets)
  | delete
  | deleteFirstLine
  | execute (command : Octets)
  | showFileName
  | get
  | getMore
  | hold
  | holdMore
  | exchange
  | showEscaped (width : Option Nat)
  | next
  | nextMore
  | print
  | printFirstLine
  | quit (code : Nat) (printing : Bool)
  | readFile (name : Octets)
  /-- Puts out a file before anything else that comes later. -/
  | showFile (name : Octets)
  | readLine (name : Octets)
  | substitute (s : Substitution)
  | write (name : Octets)
  | writeFirstLine (name : Octets)
  | transliterate (pairs : List (Char × Char))
  | clear
  | showNumber

/-- Whether an action only sets a label. -/
def Action.labels (a : Action) (name : Octets) : Bool :=
  match a with
  | label n => n = name
  | _ => false

/-- A command; commands of a script have different numbers. -/
structure Command where
  number : Nat
  address : Address
  negated : Bool
  action : Action

/-- What can be wrong with a script. -/
inductive Complaint
  | manyNegations | unexpectedComma | badFirstAddress | lineZero | unmatchedOpen | unexpectedClose
  | closeAddress | labelAddress | commentAddress | oneAddress | missingCommand
  | unknownCommand (c : Char)
  | extraCharacters | expectedText | incompleteCommand | missingLabel | missingFileName
  | openAddress | openSubstitution | openTransliteration
  | unknownFlag | manyPrintFlags | manyGlobalFlags | manyNumberFlags | zeroFlag
  | missingGroup (n : Nat)
  | emptyWithFlags | noPattern | unevenTransliteration | newerVersion | recursiveEscape
  | lonelyClass | disabled
  | regex (f : Regex.Fault)
deriving DecidableEq, Repr

/-- Whether a complaint is given without the place it is about. -/
def Complaint.standsAlone : Complaint → Bool
  | lonelyClass => true
  | _ => false

def Complaint.message : Complaint → String
  | manyNegations => "multiple `!'s"
  | unexpectedComma => "unexpected `,'"
  | badFirstAddress => "invalid usage of +N or ~N as first address"
  | lineZero => "invalid usage of line address 0"
  | unmatchedOpen => "unmatched `\x7b'"
  | unexpectedClose => "unexpected `\x7d'"
  | closeAddress => "`\x7d' doesn't want any addresses"
  | labelAddress => ": doesn't want any addresses"
  | commentAddress => "comments don't accept any addresses"
  | oneAddress => "command only uses one address"
  | missingCommand => "missing command"
  | unknownCommand c => "unknown command: `" ++ String.singleton c ++ "'"
  | extraCharacters => "extra characters after command"
  | expectedText => "expected \\ after `a', `c' or `i'"
  | incompleteCommand => "incomplete command"
  | missingLabel => "\":\" lacks a label"
  | missingFileName => "missing filename in r/R/w/W commands"
  | openAddress => "unterminated address regex"
  | openSubstitution => "unterminated `s' command"
  | openTransliteration => "unterminated `y' command"
  | unknownFlag => "unknown option to `s'"
  | manyPrintFlags => "multiple `p' options to `s' command"
  | manyGlobalFlags => "multiple `g' options to `s' command"
  | manyNumberFlags => "multiple number options to `s' command"
  | zeroFlag => "number option to `s' command may not be zero"
  | missingGroup n => s!"invalid reference \\{n} on `s' command's RHS"
  | emptyWithFlags => "cannot specify modifiers on empty regexp"
  | noPattern => "no previous regular expression"
  | unevenTransliteration => "strings for `y' command are different lengths"
  | newerVersion => "expected newer version of sed"
  | recursiveEscape => "recursive escaping after \\c not allowed"
  | disabled => "e/r/w commands disabled in sandbox mode"
  | lonelyClass => "character class syntax is [[:space:]], not [:space:]"
  | regex f => f.message

end ScriptSession.Sed
