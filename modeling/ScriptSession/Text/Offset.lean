/-!
Byte offsets into a text. Offsets count the bytes of the UTF-8 form; a text is only ever cut
between characters, so a cut inside a character moves back to that character's start.
-/
namespace ScriptSession.Text

/-- The length of a text in bytes. -/
def byteLength (cs : List Char) : Nat :=
  cs.foldl (fun n c => n + c.utf8Size) 0

/-- Moves whole characters from the front of a text onto `taken` while they fit in `n` bytes. -/
def takeBytesOnto (taken : List Char) : Nat → List Char → List Char
  | _, [] => taken
  | n, c :: cs =>
    if c.utf8Size ≤ n then takeBytesOnto (c :: taken) (n - c.utf8Size) cs else taken

/-- The longest prefix of whole characters of at most `n` bytes. -/
def takeBytes (n : Nat) (cs : List Char) : List Char :=
  (takeBytesOnto [] n cs).reverse

end ScriptSession.Text
