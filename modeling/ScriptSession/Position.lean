import ScriptSession.Text.Offset
/-!
Places in a text as a reader sees them: a line and a column, both counted from one, where columns
count characters and a line feed ends a line.
-/
namespace ScriptSession

structure Position where
  line : Nat
  column : Nat
deriving DecidableEq, Repr

namespace Position

/-- The place before the first character. -/
def first : Position := ⟨1, 1⟩

/-- The place after a character that stands at `p`. -/
def advance (p : Position) (c : Char) : Position :=
  if c = '\n' then ⟨p.line + 1, 1⟩ else ⟨p.line, p.column + 1⟩

/-- Walks over the whole characters that fit in `offset` bytes. -/
def walk (p : Position) : List Char → Nat → Position
  | [], _ => p
  | c :: cs, offset =>
    if c.utf8Size ≤ offset then walk (p.advance c) cs (offset - c.utf8Size) else p

/-- The place of a byte offset; offsets past the end mean the end. -/
def ofOffset (source : List Char) (offset : Nat) : Position :=
  walk first source offset

/-- Adds the place of every byte of a text and of its end, where the text starts at `p`. -/
def tableOnto (done : Array Position) (p : Position) : List Char → Array Position
  | [] => done.push p
  | c :: cs => tableOnto (done ++ Array.replicate c.utf8Size p) (p.advance c) cs

/-- The place of every byte of a text, and last the place of its end. -/
def table (source : List Char) : Array Position :=
  tableOnto #[] first source

/-- The place of a byte offset, read off the table of its text. -/
def ofTable (t : Array Position) (offset : Nat) : Position :=
  t[min offset (t.size - 1)]?.getD first

theorem size_lt_size_tableOnto (done : Array Position) (p : Position) (cs : List Char) :
    done.size < (tableOnto done p cs).size := by
  induction cs generalizing done p with
  | nil => simp [tableOnto]
  | cons c cs ih =>
    have h := ih (done ++ Array.replicate c.utf8Size p) (p.advance c)
    simp only [Array.size_append, Array.size_replicate] at h
    rw [tableOnto]
    omega

theorem getElem?_tableOnto_of_lt {done : Array Position} {i : Nat} (h : i < done.size)
    (p : Position) (cs : List Char) : (tableOnto done p cs)[i]? = done[i]? := by
  induction cs generalizing done p with
  | nil => rw [tableOnto, Array.getElem?_push_lt h, Array.getElem?_eq_getElem h]
  | cons c cs ih =>
    rw [tableOnto, ih (by simp only [Array.size_append]; omega), Array.getElem?_append_left h]

theorem getElem?_tableOnto (done : Array Position) (p : Position) (cs : List Char)
    (offset : Nat) :
    (tableOnto done p cs)[min (done.size + offset) ((tableOnto done p cs).size - 1)]?
      = some (walk p cs offset) := by
  induction cs generalizing done p offset with
  | nil => simp [tableOnto, walk]
  | cons c cs ih =>
    have hs : (done ++ Array.replicate c.utf8Size p).size = done.size + c.utf8Size := by simp
    rw [tableOnto, walk]
    split
    next hle =>
      rw [← ih (done ++ Array.replicate c.utf8Size p), hs]
      congr 2
      omega
    next hlt =>
      have hlarge := size_lt_size_tableOnto (done ++ Array.replicate c.utf8Size p) (p.advance c) cs
      rw [Nat.min_eq_left (by omega), getElem?_tableOnto_of_lt (by omega),
        Array.getElem?_append_right (by omega), Array.getElem?_replicate, if_pos (by omega)]

/-- The table of a text gives the place of every offset. -/
theorem ofTable_table (source : List Char) (offset : Nat) :
    ofTable (table source) offset = ofOffset source offset := by
  have h := getElem?_tableOnto #[] first source offset
  simp only [List.size_toArray, List.length_nil, Nat.zero_add] at h
  rw [ofTable, table, h, ofOffset, Option.getD_some]

def display (p : Position) : String :=
  s!"{p.line}:{p.column}"

end Position
end ScriptSession
