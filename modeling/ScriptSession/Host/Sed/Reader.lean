import ScriptSession.Host.Sed.Cursor
import ScriptSession.Host.Sed.Escape
/-!
Reading scripts of the stream editor. Where a script is at fault, what was read up to there counts:
a complaint names the place after the last character that was looked at.
-/
namespace ScriptSession.Sed

/-- How a script is read. -/
structure Dialect where
  extended : Bool
  /-- What ends lines. -/
  lineEnd : Char
  /-- Whether only the commands of the standard are known. -/
  strict : Bool
  /-- Whether commands and files of the script's own choice are refused. -/
  enclosed : Bool

/-- The pattern of a text, which has to have as many groups as are used; an empty text stands for
the last pattern that was used. -/
def patternOf (d : Dialect) (ignoreCase multiline : Bool) (used : Nat) (cs : Octets) :
    Except Complaint (Option Pattern) := do
  if cs = [] then
    if ignoreCase || multiline then throw .emptyWithFlags else return none
  let text ← if d.strict then strictPatternText (cs.length + 1) {} cs else patternText cs
  let style : Regex.Style :=
    { extended := d.extended, ignoreCase, multiline, strict := d.strict }
  match Pattern.read style d.lineEnd text with
  | .error f => throw (.regex f)
  | .ok p =>
    if !d.strict && p.groups < used then throw (.missingGroup used)
    if p.lonelyClass then throw .lonelyClass
    return some p

/-- The letters after the pattern of an address. `fuel` is more than the length of the text. -/
def addressFlags : Nat → Bool → Bool → ReadM (Bool × Bool)
  | 0, ignoreCase, multiline => return (ignoreCase, multiline)
  | fuel + 1, ignoreCase, multiline => do
    ReadM.skip Octets.isBlank
    match ← ReadM.peek with
    | some 'I' => do
      let _ ← ReadM.next
      addressFlags fuel true multiline
    | some 'M' => do
      let _ ← ReadM.next
      addressFlags fuel ignoreCase true
    | _ => return (ignoreCase, multiline)

/-- A place as an address gives it, if there is one. -/
def place? (d : Dialect) : ReadM (Option Place) := do
  let matching (delimiter : Char) : ReadM (Option Place) := do
    let part ← delimited delimiter true d.strict .openAddress
    ReadM.skip Octets.isBlank
    let (ignoreCase, multiline) ←
      if d.strict then pure (false, false) else addressFlags ((← get).length + 1) false false
    return some (.matching (← ReadM.ofExcept (patternOf d ignoreCase multiline 0 part)))
  match ← ReadM.peek with
  | some '/' => do
    let _ ← ReadM.next
    matching '/'
  | some '\\' => do
    let _ ← ReadM.next
    match ← ReadM.next with
    | some delimiter => matching delimiter
    | none => throw .openAddress
  | some '$' => do
    let _ ← ReadM.next
    return some .last
  | some c =>
    if !c.isDigit then return none
    let first ← ReadM.number
    ReadM.skip Octets.isBlank
    if !d.strict && (← ReadM.peek) = some '~' then
      let _ ← ReadM.next
      ReadM.skip Octets.isBlank
      let step ← ReadM.number
      return some (if step = 0 then .line first else .every first step)
    return some (.line first)
  | none => return none

/-- The end of a range, which also may be counted from its start. -/
def stop? (d : Dialect) : ReadM (Option Stop) := do
  if d.strict then return (← place? d).map .place
  match ← ReadM.peek with
  | some '+' => do
    let _ ← ReadM.next
    ReadM.skip Octets.isBlank
    return some (.after (← ReadM.number))
  | some '~' => do
    let _ ← ReadM.next
    ReadM.skip Octets.isBlank
    return some (.multiple (← ReadM.number))
  | _ => return (← place? d).map .place

/-- Whether line zero may start a range that ends so. -/
def Stop.allowsZero : Stop → Bool
  | .place (.matching _) => true
  | _ => false

/-- The start of an address. A count has nothing to start from here, and a count of zero stands for
every line. -/
def start? (d : Dialect) : ReadM (Option Place) := do
  let first ← ReadM.peek
  if !d.strict && (first = some '+' || first = some '~') then
    let _ ← ReadM.next
    ReadM.skip Octets.isBlank
    if (← ReadM.number) ≠ 0 then throw .badFirstAddress
    return some (.every 1 1)
  place? d

def address (d : Dialect) : ReadM Address := do
  match ← start? d with
  | none => return .always
  | some start => do
    ReadM.skip Octets.isBlank
    if (← ReadM.peek) = some ',' then
      let _ ← ReadM.next
      ReadM.skip Octets.isBlank
      match ← stop? d with
      | none => do
        let _ ← ReadM.next
        throw .unexpectedComma
      | some stop => do
        if start matches .line 0 && (d.strict || !stop.allowsZero) then
          ReadM.skip Octets.isBlank
          let _ ← ReadM.next
          throw .lineZero
        return .range start stop
    else
      if start matches .line 0 then
        if (← ReadM.next) ≠ some 'r' || d.strict then throw .lineZero
        modify ('r' :: ·)
      return .one start

/-- The flags of a substitution. -/
structure Flags where
  everywhere : Bool := false
  printing : Bool := false
  occurrence : Option Nat := none
  ignoreCase : Bool := false
  multiline : Bool := false
  evaluated : Bool := false
  target : Option Octets := none

/-- Reads the flags of a substitution up to the end of the command. `fuel` is more than the length
of the text. -/
def flags (d : Dialect) : Nat → Flags → ReadM Flags
  | 0, f => return f
  | fuel + 1, f => do
    match ← ReadM.peek with
    | none => return f
    | some c =>
      if c = '\x7d' ∨ c = '#' then return f
      if c.isDigit then
        if f.occurrence.isSome then
          let _ ← ReadM.next
          throw .manyNumberFlags
        let n ← ReadM.number
        if n = 0 then throw .zeroFlag
        return ← flags d fuel { f with occurrence := some n }
      let _ ← ReadM.next
      if d.strict && ['i', 'I', 'm', 'M', 'e'].contains c then throw .unknownFlag
      if d.enclosed && (c = 'e' || c = 'w') then throw .disabled
      match c with
      | 'i' | 'I' => flags d fuel { f with ignoreCase := true }
      | 'm' | 'M' => flags d fuel { f with multiline := true }
      | 'e' => flags d fuel { f with evaluated := true }
      | 'p' =>
        if f.printing then throw .manyPrintFlags
        flags d fuel { f with printing := true }
      | 'g' =>
        if f.everywhere then throw .manyGlobalFlags
        flags d fuel { f with everywhere := true }
      | 'w' => do
        let name ← ReadM.fileName
        return { f with target := some name }
      | '\n' | ';' => return f
      | _ => if Octets.isBlank c then flags d fuel f else throw .unknownFlag

/-- The pieces of a replacement. A letter case lasts until the next one is given, that of a first
letter for one piece; a `strict` reading knows no letter case. The text of the piece that is being
read is gathered in reverse. -/
def segments (strict : Bool) (casing next : Casing) (text : Octets) : Octets → List Segment
  | '\\' :: c :: cs =>
    let piece (group : Option Nat) : Segment := ⟨text.reverse, group, casing⟩
    let whole (all : Option LetterCase) :=
      piece none :: segments strict ⟨all, none⟩ ⟨all, none⟩ [] cs
    match strict, c with
    | false, 'L' => whole (some .lower)
    | false, 'U' => whole (some .upper)
    | false, 'E' => whole none
    | false, 'l' => piece none :: segments strict { next with first := some .lower } next [] cs
    | false, 'u' => piece none :: segments strict { next with first := some .upper } next [] cs
    | _, _ =>
      if c.isDigit then piece (some (c.toNat - '0'.toNat)) :: segments strict next next [] cs
      else ⟨(c :: text).reverse, none, casing⟩ :: segments strict next next [] cs
  | '&' :: cs => ⟨text.reverse, some 0, casing⟩ :: segments strict next next [] cs
  | c :: cs => segments strict casing next (c :: text) cs
  | [] => if text = [] then [] else [⟨text.reverse, none, casing⟩]

def substitution (d : Dialect) : ReadM Substitution := do
  let some delimiter ← ReadM.next | throw .openSubstitution
  let pattern ← delimited delimiter true d.strict .openSubstitution
  let replacement ← delimited delimiter false d.strict .openSubstitution
  let replacement ← ReadM.ofExcept (replacementText replacement)
  let pieces := segments d.strict {} {} [] replacement
  let f ← flags d ((← get).length + 1) {}
  let groups : List Nat := pieces.filterMap Segment.group
  let used := (groups.max?).getD 0
  let pattern ← ReadM.ofExcept (patternOf d f.ignoreCase f.multiline used pattern)
  return { pattern, replacement := pieces, occurrence := f.occurrence.getD 1,
           everywhere := f.everywhere, printing := f.printing, evaluated := f.evaluated,
           target := f.target }

def transliteration : ReadM (List (Char × Char)) := do
  let some delimiter ← ReadM.next | throw .openTransliteration
  let source ← delimited delimiter false false .openTransliteration
  let target ← delimited delimiter false false .openTransliteration
  let source ← ReadM.ofExcept (plainText source)
  let target ← ReadM.ofExcept (plainText target)
  if source.length ≠ target.length then throw .unevenTransliteration
  ReadM.endOfCommand
  return source.zip target

/-- The lines of a text up to one that no backslash ends; says whether the text may go on in the
next part of the script. The text is gathered in reverse. -/
def textLines (taken : Octets) : Octets → (Octets × Bool) × Octets
  | [] => ((taken, false), [])
  | ['\\'] => ((taken, true), [])
  | '\\' :: c :: cs => textLines (c :: '\\' :: taken) cs
  | c :: cs => if c = '\n' then ((taken, false), cs) else textLines (c :: taken) cs

/-- Reads the text of a command behind what was taken of it. It may go on in the next part of the
script. -/
def textToEnd (d : Dialect) (taken : Octets) : ReadM (Octets × Bool) := do
  let ((text, more), rest) := textLines taken (← get)
  set rest
  if d.strict && more then throw .incompleteCommand
  return (← ReadM.ofExcept (plainText ('\n' :: text).reverse), more)

/-- Reads the text after the letter of a command: on the next lines after a backslash, or else on
the line of the command itself. Right after the backslash another one is nothing special yet. -/
def commandText (d : Dialect) : ReadM (Octets × Bool) := do
  ReadM.skip Octets.isBlank
  match ← get with
  | [] => throw .expectedText
  | ['\\'] => do
    set ([] : Octets)
    if d.strict then throw .incompleteCommand
    return ([], true)
  | '\\' :: c :: cs => do
    set cs
    textToEnd d (if c = '\n' then [] else [c])
  | _ :: cs => do
    if d.strict then
      set cs
      throw .expectedText
    textToEnd d []

/-- Whether one of the versions up to four point nine is asked for. -/
def isKnownVersion (name : Octets) : Bool :=
  let number (cs : Octets) : Option Nat :=
    if cs ≠ [] ∧ cs.all Char.isDigit then some (Octets.readNumber 10 cs.length 0 0 cs).1 else none
  match (name.splitOn '.').map number with
  | [some major] => major ≤ 4
  | some major :: some minor :: _ => major < 4 || (major = 4 && minor ≤ 9)
  | _ => false

/-- A script that is being read, part by part. -/
structure Draft where
  /-- Newest first. -/
  commands : List Command := []
  /-- For every open block the part that opened it and how much of that part was left. -/
  blocks : List (Nat × Nat) := []
  /-- The number of the part that is being read. -/
  part : Nat := 0
  silent : Bool := false
  /-- Whether the text of the last command may go on in the next part. -/
  openText : Bool := false

def Draft.add (draft : Draft) (address : Address) (negated : Bool) (action : Action) : Draft :=
  { draft with commands := ⟨draft.commands.length, address, negated, action⟩ :: draft.commands }

/-- Adds to the text of the last command. -/
def Draft.extendText (draft : Draft) (more : Octets) (openText : Bool) : Draft :=
  match draft.commands with
  | { action := .text place text, number, address, negated } :: before =>
    { draft with
      commands := ⟨number, address, negated, .text place (text ++ more)⟩ :: before
      openText }
  | _ => { draft with openText := false }

/-- Commands of one letter without arguments. -/
def plainAction? : Char → Option Action
  | '=' => some .showNumber
  | 'd' => some .delete
  | 'D' => some .deleteFirstLine
  | 'F' => some .showFileName
  | 'g' => some .get
  | 'G' => some .getMore
  | 'h' => some .hold
  | 'H' => some .holdMore
  | 'n' => some .next
  | 'N' => some .nextMore
  | 'p' => some .print
  | 'P' => some .printFirstLine
  | 'x' => some .exchange
  | 'z' => some .clear
  | _ => none

/-- The number that a command may have, before its end. -/
def numberToEnd (d : Dialect) : ReadM (Option Nat) := do
  ReadM.skip Octets.isBlank
  let isNumbered := !d.strict && (← ReadM.peek).any Char.isDigit
  let n ← if isNumbered then some <$> ReadM.number else pure none
  ReadM.endOfCommand
  return n

/-- The letters of commands that the standard does not know. -/
def extensions : List Char := ['e', 'F', 'Q', 'R', 'T', 'v', 'W', 'z']

/-- The letters of commands that by the standard are for one line at a time. -/
def singular : List Char := ['=', 'a', 'i', 'l', 'r']

/-- The letters of commands that run commands or use files. -/
def outgoing : List Char := ['e', 'r', 'R', 'w', 'W']

/-- Reads the action of a command after its letter. -/
def action (d : Dialect) (a : Address) : Char → ReadM (Action × Bool)
  | 'a' => text .after
  | 'i' => text .before
  | 'c' => text .instead
  | ':' => do
    if !a matches .always then throw .labelAddress
    let name ← ReadM.labelName
    if name = [] then throw .missingLabel
    done (.label name)
  | 'b' => do done (.jump .always (← ReadM.labelName))
  | 't' => do done (.jump .ifReplaced (← ReadM.labelName))
  | 'T' => do done (.jump .unlessReplaced (← ReadM.labelName))
  | 'q' => quit true
  | 'Q' => quit false
  | 'l' => do done (.showEscaped (← numberToEnd d))
  | 'r' => do done (.readFile (← ReadM.fileName))
  | 'R' => do done (.readLine (← ReadM.fileName))
  | 'w' => do done (.write (← ReadM.fileName))
  | 'W' => do done (.writeFirstLine (← ReadM.fileName))
  | 'e' => do
    ReadM.skip Octets.isBlank
    done (.execute (← ReadM.restOfLine))
  | 's' => do done (.substitute (← substitution d))
  | 'y' => do done (.transliterate (← transliteration))
  | '\x7b' => done .openBlock
  | c =>
    match plainAction? c with
    | some action => do
      ReadM.endOfCommand
      done action
    | none => throw (.unknownCommand c)
where
  done (action : Action) : ReadM (Action × Bool) := return (action, false)
  text (place : TextPlace) : ReadM (Action × Bool) := do
    let (text, openText) ← commandText d
    return (.text place text, openText)
  quit (printing : Bool) : ReadM (Action × Bool) := do
    if let .range _ _ := a then throw .oneAddress
    done (.quit ((← numberToEnd d).getD 0) printing)

/-- Reads one command onto a draft; `first` says that nothing was read before it. -/
def command (d : Dialect) (first : Bool) (draft : Draft) : ReadM Draft := do
  let a ← address d
  ReadM.skip Octets.isBlank
  let mut negated := false
  if (← ReadM.peek) = some '!' then
    let _ ← ReadM.next
    negated := true
    ReadM.skip Octets.isBlank
    if (← ReadM.peek) = some '!' then
      let _ ← ReadM.next
      throw .manyNegations
  let letter ← ReadM.next
  if let some c := letter then
    if d.strict && extensions.contains c then throw (.unknownCommand c)
    if d.enclosed && outgoing.contains c then throw .disabled
    if d.strict && singular.contains c && a matches .range _ _ then throw .oneAddress
  match letter with
  | none => throw .missingCommand
  | some '#' => do
    if !a matches .always then throw .commentAddress
    let silent := first && (← ReadM.peek) = some 'n'
    let _ ← ReadM.restOfLine
    return { draft with silent := draft.silent || silent }
  | some 'v' => do
    let name ← ReadM.labelName
    if name ≠ [] ∧ !isKnownVersion name then throw .newerVersion
    return draft
  | some '\x7d' => do
    let _ :: blocks := draft.blocks | throw .unexpectedClose
    if !a matches .always then throw .closeAddress
    ReadM.endOfCommand
    return { draft.add a negated .closeBlock with blocks }
  | some c => do
    let left := (← get).length
    let (action, openText) ← action d a c
    let draft := match a, action with
      | .one (.line 0), .readFile name => draft.add (.one (.line 1)) negated (.showFile name)
      | _, _ => draft.add a negated action
    return { draft with
      blocks := if action matches .openBlock then (draft.part, left) :: draft.blocks
        else draft.blocks
      openText }

/-- Reads commands up to the end of a part or to a complaint, and gives what is left. `fuel` is more
than the length of the text. -/
def commands (d : Dialect) : Nat → Bool → Draft → Octets → Draft × Option Complaint × Octets
  | 0, _, draft, cs => (draft, none, cs)
  | fuel + 1, first, draft, cs =>
    match cs.dropWhile fun c => c = ';' || Octets.isSpace c with
    | [] => (draft, none, [])
    | start =>
      match (command d (first && start.length = cs.length) draft).run.run start with
      | (.ok draft, rest) => commands d fuel false draft rest
      | (.error complaint, rest) => (draft, some complaint, rest)

/-- Reads a part of a script, given whether it is the first; a complaint comes with the number of
characters that were looked at. -/
def readPart (d : Dialect) (first : Bool) (draft : Draft) (cs : Octets) :
    Draft × Option (Complaint × Nat) :=
  let (draft, complaint, rest) :=
    if draft.openText then
      match (textToEnd d []).run.run cs with
      | (.ok (more, openText), rest) =>
        commands d (cs.length + 1) false (draft.extendText more openText) rest
      | (.error complaint, rest) => (draft, some complaint, rest)
    else commands d (cs.length + 1) first draft cs
  (draft, complaint.map (·, cs.length - rest.length))

end ScriptSession.Sed
