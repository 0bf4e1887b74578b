import ScriptSession.Host.Shell.Cursor
/-!
Reading scripts of the shell. A script is read line by line, or rather command by command up to the
end of a line, since what comes first runs before the rest is looked at.
-/
namespace ScriptSession.Shell

/-- What a word is part of, and so where it ends. -/
inductive Context
  | bare
  | braces
  | quotes
  | quotedBraces
  | document
  | arithmetic (depth : Nat)
deriving DecidableEq

def Context.isQuoted : Context → Bool
  | bare => false
  | braces => false
  | _ => true

/-- Adds a character to the pieces of a word, of which the newest is first. -/
def addChar (quoted : Bool) (x : Char) : Word → Word
  | .text s q :: before => if q = quoted then .text (s ++ [x]) q :: before
    else .text [x] quoted :: .text s q :: before
  | before => .text [x] quoted :: before

def addText (quoted : Bool) (s : Octets) (before : Word) : Word :=
  .text s quoted :: before

/-- Whether a character ends a word outside quotes. -/
def endsWord (x : Char) : Bool :=
  [' ', '\t', '\n', ';', '&', '|', '<', '>', '(', ')'].contains x

/-- Whether a character is the name of a parameter that the shell itself sets. -/
def isSpecial (x : Char) : Bool :=
  ['!', '#', '$', '*', '-', '?', '@'].contains x || x.isDigit

/-- The text of a word without its quotes, where nothing is put into it. -/
def plainWord (w : Word) : Octets :=
  w.flatMap fun
    | .text s _ => s
    | _ => []

/-- The text of a word in which nothing is quoted and nothing is put in. -/
def bareWord? : Word → Option Octets
  | [.text s false] => some s
  | _ => none

/-- The name and the start of the value where a word is an assignment. -/
def assignment? : Word → Option (Octets × Word)
  | .text s false :: rest =>
    match Octets.splitAt? '=' s with
    | some (name, value) =>
      if isName name then
        some (name, if value = [] then rest else .text value false :: rest)
      else none
    | none => none
  | _ => none

/-- The text between backquotes, of which some backslashes are taken away. -/
def backquoted (quoted : Bool) : Nat → Octets → ReadM Octets
  | 0, taken => return taken.reverse
  | fuel + 1, taken => do
    match ← ReadM.next with
    | none => ReadM.fail "EOF in backquote substitution"
    | some '\x60' => return taken.reverse
    | some '\\' => do
      match ← ReadM.next with
      | none => ReadM.fail "EOF in backquote substitution"
      | some x =>
        if x = '\n' then backquoted quoted fuel taken
        else if x = '\\' ∨ x = '\x60' ∨ x = '$' ∨ (quoted ∧ x = '"') then
          backquoted quoted fuel (x :: taken)
        else backquoted quoted fuel (x :: '\\' :: taken)
    | some x => backquoted quoted fuel (x :: taken)

/-- What may stand before a token that is looked for. -/
structure Allowed where
  newlines : Bool := false
  keywords : Bool := false

def anywhere : Allowed := { newlines := true, keywords := true }

/-- How a list of commands is read. -/
inductive ListKind
  /-- Up to the end of the line. -/
  | line
  /-- Up to a token that ends lists, but not before the first command. -/
  | filled
  /-- Up to a token that ends lists. -/
  | any
deriving DecidableEq

namespace ReadM

mutual

/-- Reads the pieces of a word behind those before, of which the newest is first. -/
def word : Nat → Context → Word → ReadM Word
  | 0, _, before => return before.reverse
  | fuel + 1, context, before => do
    let quoted := context.isQuoted
    let add (x : Char) := word fuel context (addChar quoted x before)
    match ← ReadM.peek with
    | none =>
      match context with
      | .bare => return before.reverse
      | .document => return before.reverse
      | .braces => ReadM.fail "Missing '\x7d'"
      | .quotedBraces => ReadM.fail "Missing '\x7d'"
      | .quotes => ReadM.fail "Unterminated quoted string"
      | .arithmetic _ => ReadM.fail "Missing '))'"
    | some x =>
      if context = .bare ∧ endsWord x then return before.reverse
      ReadM.skip
      match x, context with
      | '\\', .bare => escaped fuel context before
      | '\\', .braces => escaped fuel context before
      | '\\', _ => do
        match ← ReadM.peek with
        | some '\n' => do
          ReadM.skip
          word fuel context before
        | some y =>
          let meant := y = '\\' || y = '\x60' || y = '$' || (y = '"' && context != .document) ||
            (y = '\x7d' && context = .quotedBraces)
          if meant then
            ReadM.skip
            word fuel context (addChar true y before)
          else add x
        | none => add x
      | '\'', .bare => quotedText fuel context before
      | '\'', .braces => quotedText fuel context before
      | '"', .quotes => return before.reverse
      | '"', .document => add x
      | '"', .arithmetic _ => add x
      | '"', _ => do
        let inner ← word fuel .quotes []
        let inner := if inner.isEmpty then [.text [] true] else inner
        word fuel context (inner.reverse ++ before)
      | '\x7d', .braces => return before.reverse
      | '\x7d', .quotedBraces => return before.reverse
      | '(', .arithmetic n => word fuel (.arithmetic (n + 1)) (addChar true x before)
      | ')', .arithmetic 0 => do
        if ← ReadM.take ')' then return before.reverse
        add x
      | ')', .arithmetic (n + 1) => word fuel (.arithmetic n) (addChar true x before)
      | '\x60', _ => do
        let text ← backquoted quoted fuel []
        let outer ← get
        set { outer with rest := text, line := 1, again := false }
        let body ← list fuel .any []
        modify fun c =>
          { c with rest := outer.rest, line := outer.line, last := outer.last, again := false }
        word fuel context (.output body quoted :: before)
      | '$', _ => do
        let piece ← parameter fuel quoted
        match piece with
        | some p => word fuel context (p :: before)
        | none => add x
      | _, _ => add x

/-- Reads the character after a backslash outside quotes. -/
def escaped : Nat → Context → Word → ReadM Word
  | 0, _, before => return before.reverse
  | fuel + 1, context, before => do
    match ← ReadM.next with
    | none => word fuel context (addChar true '\\' before)
    | some '\n' => word fuel context before
    | some y => word fuel context (addChar true y before)

/-- Reads what follows a single quote. -/
def quotedText : Nat → Context → Word → ReadM Word
  | 0, _, before => return before.reverse
  | fuel + 1, context, before => do
    let text ← ReadM.takeWhile (· ≠ '\'')
    match ← ReadM.next with
    | none => ReadM.fail "Unterminated quoted string"
    | some _ => word fuel context (addText true text before)

/-- Reads what follows a dollar sign; nothing if the sign stands for itself. -/
def parameter : Nat → Bool → ReadM (Option Piece)
  | 0, _ => return none
  | fuel + 1, quoted => do
    ReadM.joinLines fuel
    match ← ReadM.peek with
    | some '(' => do
      ReadM.skip
      ReadM.joinLines fuel
      if ← ReadM.take '(' then
        return some (.arithmetic (← word fuel (.arithmetic 0) []) quoted)
      let outer := (← get).last
      let body ← list fuel .any []
      match ← token fuel {} with
      | .closing => do
        modify fun c => { c with last := outer, again := false }
        return some (.output body quoted)
      | _ => ReadM.unexpected (some .closing)
    | some '\x7b' => do
      ReadM.skip
      return some (← braced fuel quoted)
    | some x =>
      if isNameStart x then
        return some (.parameter (← ReadM.takeWhile isNameChar) .value quoted)
      else if isSpecial x then
        ReadM.skip
        return some (.parameter [x] .value quoted)
      else return none
    | none => return none

/-- Reads a parameter in braces, after the opening one. -/
def braced : Nat → Bool → ReadM Piece
  | 0, quoted => return .parameter [] .bad quoted
  | fuel + 1, quoted => do
    let inner : Context := if quoted then .quotedBraces else .braces
    let bad : ReadM Piece := do
      let _ ← word fuel inner []
      return .parameter [] .bad quoted
    let name : ReadM (Option Octets) := do
      ReadM.joinLines fuel
      match ← ReadM.peek with
      | some x =>
        if isNameStart x then return some (← ReadM.takeWhile isNameChar)
        else if x.isDigit then return some (← ReadM.takeWhile Char.isDigit)
        else if isSpecial x then
          ReadM.skip
          return some [x]
        else return none
      | none => return none
    match (← get).rest with
    | '#' :: '\x7d' :: _ => do
      ReadM.skip
      ReadM.skip
      return .parameter ['#'] .value quoted
    | '#' :: x :: rest =>
      let alone := rest.head? = some '\x7d'
      if isNameStart x ∨ x.isDigit ∨ (isSpecial x ∧ alone) then
        ReadM.skip
        match ← name with
        | none => bad
        | some n =>
          if ← ReadM.take '\x7d' then return .parameter n .length quoted else bad
      else if alone then
        ReadM.skip
        ReadM.skip
        bad
      else use fuel quoted (← name)
    | _ => use fuel quoted (← name)

/-- Reads what is made of a parameter in braces, after its name. -/
def use : Nat → Bool → Option Octets → ReadM Piece
  | 0, quoted, _ => return .parameter [] .bad quoted
  | fuel + 1, quoted, name => do
    let inner : Context := if quoted then .quotedBraces else .braces
    let bad : ReadM Piece := do
      if (← ReadM.peek) ≠ some '\x7d' then ReadM.skip
      let _ ← word fuel inner []
      return .parameter [] .bad quoted
    match name with
    | none => bad
    | some n => do
      ReadM.joinLines fuel
      let emptyToo ← ReadM.take ':'
      ReadM.joinLines fuel
      let fallback (kind : Fallback) : ReadM Piece := do
        ReadM.skip
        return .parameter n (.fallback kind emptyToo (← word fuel inner [])) quoted
      match ← ReadM.peek with
      | some '-' => fallback .default
      | some '=' => fallback .assign
      | some '?' => fallback .fail
      | some '+' => fallback .instead
      | some '\x7d' => do
        ReadM.skip
        if emptyToo then
          let _ ← word fuel inner []
        return .parameter n .value quoted
      | some x =>
        if !emptyToo ∧ (x = '%' ∨ x = '#') then
          ReadM.skip
          let longest ← ReadM.take x
          return .parameter n (.trim (x = '%') longest (← word fuel .braces [])) quoted
        else bad
      | none => bad

/-- Reads the texts that were announced. -/
def announcedTexts : Nat → ReadM Unit
  | 0 => return
  | fuel + 1 => do
    let c ← get
    match c.announced with
    | [] => return
    | a :: announced => do
      set { c with announced }
      let text ← lines fuel a []
      let body ← if a.literal then pure [.text text true] else do
        let outer ← get
        set { outer with rest := text }
        let body ← word fuel .document []
        modify fun c => { c with rest := outer.rest, line := outer.line }
        pure body
      modify fun c => { c with documents := (a.number, body) :: c.documents }
      announcedTexts fuel

/-- Reads the lines of an announced text. -/
def lines : Nat → Announced → Octets → ReadM Octets
  | 0, _, taken => return taken
  | fuel + 1, a, taken => do
    if (← get).rest = [] then return taken
    let line ← ReadM.takeWhile (· ≠ '\n')
    let closed ← ReadM.take '\n'
    let line := if a.withoutTabs then line.dropWhile (· = '\t') else line
    if line = a.stop then return taken
    lines fuel a (taken ++ line ++ if closed then ['\n'] else [])

/-- Reads a token as it stands in the text. -/
def plainToken : Nat → ReadM Token
  | 0 => return .endOfFile
  | fuel + 1 => do
    let _ ← ReadM.takeWhile Octets.isBlank
    match (← get).rest with
    | [] => return .endOfFile
    | '\\' :: '\n' :: _ => do
      ReadM.skip
      ReadM.skip
      plainToken fuel
    | '#' :: _ => do
      let _ ← ReadM.takeWhile (· ≠ '\n')
      plainToken fuel
    | x :: rest =>
      let operator (one : Token) (two : Token) : ReadM Token := do
        ReadM.skip
        ReadM.joinLines fuel
        if ← ReadM.take x then return two else return one
      match x with
      | '\n' => do
        ReadM.skip
        return .newline
      | ';' => operator .semicolon .endOfCase
      | '&' => operator .ampersand .and
      | '|' => operator .pipe .or
      | '(' => do
        ReadM.skip
        return .opening
      | ')' => do
        ReadM.skip
        return .closing
      | '<' => redirection fuel none
      | '>' => redirection fuel none
      | _ =>
        match rest with
        | '<' :: _ =>
          if x.isDigit then redirection fuel (some x) else return .word (← word fuel .bare [])
        | '>' :: _ =>
          if x.isDigit then redirection fuel (some x) else return .word (← word fuel .bare [])
        | _ => return .word (← word fuel .bare [])

/-- Reads the sign of a redirection with the number of its stream. -/
def redirection : Nat → Option Char → ReadM Token
  | 0, _ => return .endOfFile
  | fuel + 1, digit => do
    if digit.isSome then ReadM.skip
    let sign := ((← ReadM.next).getD '<')
    ReadM.joinLines fuel
    let standard := if sign = '>' then 1 else 0
    let stream := (digit.map fun d => d.toNat - '0'.toNat).getD standard
    let followers := if sign = '>' then ['>', '|', '&'] else ['<', '&', '>']
    match ← ReadM.peek with
    | some x =>
      if followers.contains x then
        ReadM.skip
        if sign = '<' ∧ x = '<' then
          if ← ReadM.take '-' then return .redirection stream "<<-"
        return .redirection stream (String.ofList [sign, x])
      else return .redirection stream (String.singleton sign)
    | none => return .redirection stream (String.singleton sign)

/-- Reads the next token, which becomes the last one. -/
def token : Nat → Allowed → ReadM Token
  | 0, _ => return .endOfFile
  | fuel + 1, allowed => do
    let c ← get
    let t ← if c.again then pure c.last else plainToken fuel
    modify fun c => { c with again := false, last := t }
    match t with
    | .newline =>
      if allowed.newlines then
        announcedTexts fuel
        token fuel allowed
      else return t
    | .word w =>
      match bareWord? w with
      | some s =>
        let name := String.ofList s
        if allowed.keywords ∧ keywords.contains name then
          modify fun c => { c with last := .keyword name }
          return .keyword name
        else return t
      | none => return t
    | _ => return t

/-- Reads commands up to the end of a list. -/
def list : Nat → ListKind → List Command → ReadM (List Command)
  | 0, _, before => return before.reverse
  | fuel + 1, kind, before => do
    let t ← token fuel { newlines := kind != .line, keywords := true }
    match t with
    | .newline => do
      announcedTexts fuel
      return before.reverse
    | .endOfFile => do
      ReadM.putBack
      return before.reverse
    | _ => do
      ReadM.putBack
      if t.endsList ∧ (kind = .any ∨ (kind = .filled ∧ before ≠ [])) then
        return before.reverse
      let first ← pipeline fuel {}
      let c ← conjunction fuel first
      match ← token fuel {} with
      | .ampersand => list fuel kind (.background c :: before)
      | .semicolon => list fuel kind (c :: before)
      | .newline => do
        ReadM.putBack
        list fuel kind (c :: before)
      | .endOfFile => do
        ReadM.putBack
        return (c :: before).reverse
      | _ => do
        if kind = .line then ReadM.unexpected none
        ReadM.putBack
        return (c :: before).reverse

/-- Reads what is joined to a pipeline by signs for and and or. -/
def conjunction : Nat → Command → ReadM Command
  | 0, first => return first
  | fuel + 1, first => do
    match ← token fuel {} with
    | .and => do
      let second ← pipeline fuel anywhere
      conjunction fuel (.both first second)
    | .or => do
      let second ← pipeline fuel anywhere
      conjunction fuel (.either first second)
    | _ => do
      ReadM.putBack
      return first

def pipeline : Nat → Allowed → ReadM Command
  | 0, _ => return .group []
  | fuel + 1, allowed => do
    let t ← token fuel allowed
    let negated := t.isKeyword "!"
    if !negated then ReadM.putBack
    let first ← command fuel { keywords := negated }
    let parts ← piped fuel [first]
    let c := match parts with
      | [one] => one
      | parts => .pipeline parts
    return if negated then .negation c else c

/-- Reads the other parts of a pipeline; those before come newest first. -/
def piped : Nat → List Command → ReadM (List Command)
  | 0, before => return before.reverse
  | fuel + 1, before => do
    match ← token fuel {} with
    | .pipe => do
      let c ← command fuel anywhere
      piped fuel (c :: before)
    | _ => do
      ReadM.putBack
      return before.reverse

/-- Reads a token that has to be a keyword. -/
def wanted : Nat → String → ReadM Unit
  | 0, _ => return
  | fuel + 1, name => do
    let t ← token fuel {}
    if !t.isKeyword name then ReadM.unexpected (some (.keyword name))

def command : Nat → Allowed → ReadM Command
  | 0, _ => return .group []
  | fuel + 1, allowed => do
    match ← token fuel allowed with
    | .keyword "if" => do
      let (branches, otherwise) ← branches fuel []
      wanted fuel "fi"
      redirected fuel (.conditional branches otherwise)
    | .keyword "while" => do
      let c ← loop fuel false
      redirected fuel c
    | .keyword "until" => do
      let c ← loop fuel true
      redirected fuel c
    | .keyword "for" => do
      let line := (← get).line
      let t ← token fuel {}
      let name := match t with
        | .word w => ((bareWord? w).filter isName)
        | _ => none
      match name with
      | none => ReadM.fail "Bad for loop variable"
      | some name => do
        let words ← forWords fuel
        let t ← token fuel anywhere
        if !t.isKeyword "do" then ReadM.unexpected (some (.keyword "do"))
        let body ← list fuel .filled []
        wanted fuel "done"
        redirected fuel (.forEach line name words body)
    | .keyword "case" => do
      let line := (← get).line
      match ← token fuel {} with
      | .word w => do
        let t ← token fuel anywhere
        if !t.isKeyword "in" then ReadM.unexpected (some (.keyword "in"))
        let cases ← cases fuel []
        redirected fuel (.choice line w cases)
      | _ => ReadM.unexpected (some (.word []))
    | .opening => do
      let body ← list fuel .filled []
      match ← token fuel {} with
      | .closing => redirected fuel (.subshell body)
      | _ => ReadM.unexpected (some .closing)
    | .keyword "\x7b" => do
      let body ← list fuel .filled []
      wanted fuel "\x7d"
      redirected fuel (.group body)
    | .word _ => do
      ReadM.putBack
      simple fuel (← get).line [] [] []
    | .redirection _ _ => do
      ReadM.putBack
      simple fuel (← get).line [] [] []
    | _ => ReadM.unexpected none

/-- Reads the branches of a conditional, after `if` or `elif`, and what stands after `else`. -/
def branches : Nat → List (List Command × List Command) →
    ReadM (List (List Command × List Command) × List Command)
  | 0, before => return (before.reverse, [])
  | fuel + 1, before => do
    let condition ← list fuel .filled []
    wanted fuel "then"
    let body ← list fuel .filled []
    let all := (condition, body) :: before
    match ← token fuel {} with
    | .keyword "elif" => branches fuel all
    | .keyword "else" => return (all.reverse, ← list fuel .filled [])
    | _ => do
      ReadM.putBack
      return (all.reverse, [])

def loop : Nat → Bool → ReadM Command
  | 0, _ => return .group []
  | fuel + 1, negated => do
    let condition ← list fuel .filled []
    wanted fuel "do"
    let body ← list fuel .filled []
    wanted fuel "done"
    return .loop negated condition body

/-- Reads the words of a loop over words, if there are any. -/
def forWords : Nat → ReadM (Option (List Word))
  | 0 => return none
  | fuel + 1 => do
    match ← token fuel anywhere with
    | .keyword "in" => do
      let words ← words fuel []
      match (← get).last with
      | .newline => return some words
      | .semicolon => return some words
      | _ => ReadM.unexpected none
    | .semicolon => return none
    | _ => do
      ReadM.putBack
      return none

/-- Reads words up to another token. -/
def words : Nat → List Word → ReadM (List Word)
  | 0, before => return before.reverse
  | fuel + 1, before => do
    match ← token fuel {} with
    | .word w => words fuel (w :: before)
    | _ => return before.reverse

/-- Reads the cases of a choice and the word that ends them. -/
def cases : Nat → List (List Word × List Command) → ReadM (List (List Word × List Command))
  | 0, before => return before.reverse
  | fuel + 1, before => do
    let t ← token fuel anywhere
    if t.isKeyword "esac" then return before.reverse
    let t ← match t with
      | .opening => token fuel {}
      | t => pure t
    let patterns ← patterns fuel t []
    match (← get).last with
    | .closing => pure ()
    | _ => ReadM.unexpected (some .closing)
    let body ← list fuel .any []
    let all := (patterns, body) :: before
    match ← token fuel anywhere with
    | .keyword "esac" => return all.reverse
    | .endOfCase => cases fuel all
    | _ => ReadM.unexpected (some .endOfCase)

/-- Reads the patterns of a case, of which the first was read. -/
def patterns : Nat → Token → List Word → ReadM (List Word)
  | 0, _, before => return before.reverse
  | fuel + 1, t, before => do
    let w : Word := match t with
      | .word w => w
      | .keyword name => [.text (Octets.ofString name) false]
      | _ => []
    match ← token fuel {} with
    | .pipe => do
      let t ← token fuel {}
      patterns fuel t (w :: before)
    | _ => return (w :: before).reverse

/-- Reads the redirections after a command. -/
def redirected : Nat → Command → ReadM Command
  | 0, c => return c
  | fuel + 1, c => do
    let line := (← get).line
    let redirects ← redirects fuel { keywords := true } []
    return if redirects.isEmpty then c else .redirected line c redirects

/-- Reads redirections behind those before, of which the newest is first. -/
def redirects : Nat → Allowed → List Redirect → ReadM (List Redirect)
  | 0, _, before => return before.reverse
  | fuel + 1, allowed, before => do
    match ← token fuel allowed with
    | .redirection stream operator => do
      let r ← target fuel stream operator
      redirects fuel {} (r :: before)
    | _ => do
      ReadM.putBack
      return before.reverse

/-- Reads where a redirection leads. -/
def target : Nat → Nat → String → ReadM Redirect
  | 0, stream, _ => return (stream, .document 0)
  | fuel + 1, stream, operator => do
    match ← token fuel {} with
    | .word w =>
      match operator with
      | "<" => return (stream, .read w)
      | "<>" => return (stream, .readWrite w)
      | ">>" => return (stream, .append w)
      | "<<" => announce stream w false
      | "<<-" => announce stream w true
      | ">&" => return (stream, .duplicate w)
      | "<&" => return (stream, .duplicate w)
      | _ => return (stream, .write w)
    | _ => ReadM.unexpected none
where
  announce (stream : Nat) (w : Word) (withoutTabs : Bool) : ReadM Redirect := do
    let c ← get
    let number := c.documents.length + c.announced.length + 1
    let a : Announced := ⟨number, plainWord w, (bareWord? w).isNone, withoutTabs⟩
    set { c with announced := c.announced ++ [a] }
    return (stream, .document number)

/-- Reads the parts of a simple command, or the function that it turns out to define. All parts
come newest first. -/
def simple : Nat → Nat → List (Octets × Word) → List Word → List Redirect → ReadM Command
  | 0, _, _, _, _ => return .group []
  | fuel + 1, line, assignments, words, redirects => do
    let done : ReadM Command := do
      ReadM.putBack
      return .simple line assignments.reverse words.reverse redirects.reverse
    match ← token fuel {} with
    | .word w =>
      match words, assignment? w with
      | [], some a => simple fuel line (a :: assignments) words redirects
      | _, _ => simple fuel line assignments (w :: words) redirects
    | .redirection stream operator => do
      let r ← target fuel stream operator
      simple fuel line assignments words (r :: redirects)
    | .opening =>
      match assignments, words, redirects with
      | [], [w], [] => do
        match ← token fuel {} with
        | .closing => pure ()
        | _ => ReadM.unexpected (some .closing)
        match (bareWord? w).filter isName with
        | none => ReadM.fail "Bad function name"
        | some name => do
          let body ← command fuel anywhere
          return .function name body
      | _, _, _ => done
    | _ => done

end

end ReadM

/-- Reads the commands up to the end of a line; nothing at the end of the script. -/
def readLine (c : Cursor) : Except Fault (Option (List Command)) × Cursor :=
  let fuel := 10 * c.rest.length + 100
  let reading : ReadM (Option (List Command)) := do
    let commands ← ReadM.list fuel .line []
    match commands, (← get).last with
    | [], .endOfFile => return none
    | commands, _ => return some commands
  reading.run.run { c with again := false }

end ScriptSession.Shell
