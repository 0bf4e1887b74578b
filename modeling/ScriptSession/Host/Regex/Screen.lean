import ScriptSession.Host.Regex.Reader
/-!
A quick look at a whole text: which places can matching reach at all? Places are the bits of a
number, so that all of them are looked at together. Only lines are known here, not the text as a
whole, and what was not understood stands for any text.
-/
namespace ScriptSession.Regex

/-- A set of places of a text, one bit for each. -/
abbrev Places := Nat

namespace Places

/-- The places from `low` on, `count` of them, at which a character satisfies a condition. `fuel` is
more than the number of times that the text can be halved. -/
def within (text : Array Char) (p : Char → Bool) : Nat → Nat → Nat → Places
  | 0, _, _ => 0
  | fuel + 1, low, count =>
    if count = 0 then 0
    else if count = 1 then if (text[low]?).any p then 1 else 0
    else
      let half := count / 2
      within text p fuel low half ||| within text p fuel (low + half) (count - half) <<< half

def ofChars (text : Array Char) (p : Char → Bool) : Places :=
  within text p (text.size + 1) 0 text.size

/-- The first of some places, alone. -/
def lowest (places : Places) : Places := places ^^^ (places &&& (places - 1))

/-- The places up to the end of a text. -/
def all (size : Nat) : Places := 1 <<< (size + 1) - 1

end Places

/-- A text that is looked at. -/
structure Scene where
  size : Nat
  /-- Where the characters of each set stand. -/
  chars : List (CharSet × Places)
  lineEnds : Places
  words : Places

namespace Scene

def placesOf (s : Scene) (set : CharSet) : Places := (s.chars.lookup set).getD 0

/-- Where a constraint holds. -/
def allowed (s : Scene) (c : Constraint) (places : Places) : Places :=
  let all := Places.all s.size
  let onlyIf (b : Bool) (mask : Places) (places : Places) : Places :=
    if b then places &&& mask else places
  let afterWord := s.words <<< 1
  let lineStart := s.lineEnds <<< 1 ||| 1
  let lineEnd := s.lineEnds ||| 1 <<< s.size
  places
    |> onlyIf c.afterWord afterWord
    |> onlyIf c.afterNoWord (all ^^^ afterWord)
    |> onlyIf (c.afterBreak || c.afterStart) lineStart
    |> onlyIf c.beforeWord s.words
    |> onlyIf c.beforeNoWord (all ^^^ s.words)
    |> onlyIf (c.beforeBreak || c.beforeEnd) lineEnd

/-- Steps from places until no new one is reached. `fuel` is more than the number of places. -/
def stepAll (step : Places → Places) : Nat → Places → Places → Places
  | 0, reached, _ => reached
  | fuel + 1, reached, latest =>
    let next := step latest
    let new := next ^^^ (next &&& reached)
    if new = 0 then reached else stepAll step fuel (reached ||| new) new

/-- The places that are reached from others through a tree. Through a star over one character,
adding carries each place to the end of the characters that follow it. -/
def reach (s : Scene) : Tree → Places → Places
  | .nothing, places => places
  | .step (.one set), places => (places &&& s.placesOf set) <<< 1
  | .step (.again _), places =>
    if places = 0 then 0 else Places.all s.size ^^^ (Places.lowest places - 1)
  | .step (.assertion c), places => s.allowed c places
  | .step _, places => places
  | .sequence a b, places => s.reach b (s.reach a places)
  | .either a b, places => s.reach a places ||| s.reach b places
  | .star (.step (.one set)), places =>
    let chars := s.placesOf set
    (((places &&& chars) + chars) ^^^ chars) ||| places
  | .star t, places => stepAll (s.reach t) (s.size + 2) places places
  | .group _ _ t, places => s.reach t places
  | .copy t, places => s.reach t places

end Scene

/-- The sets of characters in a tree. -/
def Tree.charSets : Tree → List CharSet
  | .step (.one s) => [s]
  | .sequence a b => a.charSets ++ b.charSets
  | .either a b => a.charSets ++ b.charSets
  | .star t => t.charSets
  | .group _ _ t => t.charSets
  | .copy t => t.charSets
  | _ => []

/-- A tree for quick looks. -/
structure Screen where
  tree : Tree
  sets : List CharSet
  /-- Whether everything in it is understood. -/
  exact : Bool

namespace Screen

def ofTree (t : Tree) : Screen where
  tree := t
  sets := t.charSets.eraseDups
  exact := !t.any (· matches .again _)

/-- Whether a tree can match anywhere in a text whose lines end with `lineEnd`. Without any
character to look for nothing is known unless everything is understood. -/
def admits (s : Screen) (lineEnd : Char) (text : Array Char) : Bool :=
  if !s.exact && s.sets.isEmpty then true
  else
    let scene : Scene := {
      size := text.size
      chars := s.sets.map fun set => (set, Places.ofChars text set.contains)
      lineEnds := Places.ofChars text (· = lineEnd)
      words := Places.ofChars text CharSet.word.contains }
    scene.reach s.tree (Places.all text.size) ≠ 0

end Screen
end ScriptSession.Regex
