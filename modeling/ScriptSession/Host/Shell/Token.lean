import ScriptSession.Host.Shell.Script
/-!
The tokens of the shell.
-/
namespace ScriptSession.Shell

inductive Token
  | endOfFile | newline | semicolon | ampersand | and | or | pipe | opening | closing | endOfCase
  | redirection (stream : Nat) (operator : String)
  | word (w : Word)
  /-- A word that means something where a command starts. -/
  | keyword (name : String)

/-- How a token is called in complaints. -/
def Token.name : Token → String
  | endOfFile => "end of file"
  | newline => "newline"
  | semicolon => "\";\""
  | ampersand => "\"&\""
  | and => "\"&&\""
  | or => "\"||\""
  | pipe => "\"|\""
  | opening => "\"(\""
  | closing => "\")\""
  | endOfCase => "\";;\""
  | redirection _ _ => "redirection"
  | word _ => "word"
  | keyword name => "\"" ++ name ++ "\""

def Token.isKeyword (t : Token) (name : String) : Bool :=
  match t with
  | keyword k => k = name
  | _ => false

def keywords : List String :=
  ["!", "case", "do", "done", "elif", "else", "esac", "fi", "for", "if", "in", "then", "until",
   "while", "\x7b", "\x7d"]

/-- Whether a list of commands may end before a token. -/
def Token.endsList : Token → Bool
  | endOfFile => true
  | closing => true
  | endOfCase => true
  | keyword k => ["do", "done", "elif", "else", "esac", "fi", "then", "\x7d"].contains k
  | _ => false

end ScriptSession.Shell
