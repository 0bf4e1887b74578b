import Mathlib.Algebra.Group.Int.Defs
import ScriptSession.Proofs.Evaluation
import ScriptSession.Proofs.Numeral

namespace ScriptSession

def Word.Holds (n : Int) : Prop :=
  -2 ^ 63 ≤ n ∧ n ≤ 2 ^ 63 - 1

instance (n : Int) : Decidable (Word.Holds n) :=
  inferInstanceAs (Decidable (_ ∧ _))

namespace BinaryOp

def arithmetic : List BinaryOp := [add, sub, mul, div, rem]

/-- What an arithmetic operator comes to on unbounded integers; division rounds toward zero. -/
def exactResult? : BinaryOp → Int → Int → Option Int
  | add, a, b => some (a + b)
  | sub, a, b => some (a - b)
  | mul, a, b => some (a * b)
  | div, a, b => some (a.tdiv b)
  | rem, a, b => some (a.tmod b)
  | _, _, _ => none

end BinaryOp

inductive Expr.IsArithmetic : Expr → Prop
  | literal (span : Span) (n : Word) : IsArithmetic (.literal span (.int n))
  | path (span : Span) (segments : List String) : IsArithmetic (.path span segments)
  | neg {span : Span} {e : Expr} : IsArithmetic e → IsArithmetic (.unary span .neg e)
  | binary {span : Span} {op : BinaryOp} {l r : Expr} : op ∈ BinaryOp.arithmetic →
      IsArithmetic l → IsArithmetic r → IsArithmetic (.binary span op l r)

/-- One operation on unbounded integers, with the offset where its expression starts. -/
inductive Operation
  | negation (offset : Nat) (operand : Int)
  | binary (offset : Nat) (op : BinaryOp) (left right result : Int)

namespace Operation

def offset : Operation → Nat
  | negation offset _ | binary offset .. => offset

def symbol : Operation → String
  | negation .. => "-"
  | binary _ op .. => op.symbol

def result : Operation → Int
  | negation _ operand => -operand
  | binary _ _ _ _ result => result

def DividesByZero : Operation → Prop
  | negation .. => False
  | binary _ op _ right _ => op ∈ [.div, .rem] ∧ right = 0

/-- The one remainder that words do not have, although it is zero. -/
def IsRemainderOfLeast : Operation → Prop
  | negation .. => False
  | binary _ op left right _ => op = .rem ∧ left = -2 ^ 63 ∧ right = -1

instance (o : Operation) : Decidable o.DividesByZero := by
  cases o <;> unfold DividesByZero <;> infer_instance

instance (o : Operation) : Decidable o.IsRemainderOfLeast := by
  cases o <;> unfold IsRemainderOfLeast <;> infer_instance

def Fails (o : Operation) : Prop :=
  o.DividesByZero ∨ o.IsRemainderOfLeast ∨ ¬ Word.Holds o.result

instance (o : Operation) : Decidable o.Fails :=
  inferInstanceAs (Decidable (_ ∨ _))

def fault (o : Operation) : Fault :=
  ⟨o.offset, if o.DividesByZero then .divisionByZero else .overflow o.symbol⟩

end Operation

/-- Over unbounded integers an expression performs some operations, in this order, and comes to a
number. -/
inductive Frame.Computes (f : Frame) : Expr → List Operation → Int → Prop
  | literal {span : Span} {n : Word} : Computes f (.literal span (.int n)) [] n.toInt
  | path {span : Span} {segments : List String} {n : Word} : f.lookup span.start = .int n →
      Computes f (.path span segments) [] n.toInt
  | neg {span : Span} {e : Expr} {ops : List Operation} {n : Int} : Computes f e ops n →
      Computes f (.unary span .neg e) (ops ++ [.negation span.start n]) (-n)
  | binary {span : Span} {op : BinaryOp} {l r : Expr} {ops ops' : List Operation} {a b n : Int} :
      Computes f l ops a → Computes f r ops' b → op.exactResult? a b = some n →
      Computes f (.binary span op l r) (ops ++ ops' ++ [.binary span.start op a b n]) n

/-- An evaluation that does some operations in words: it comes to their result, or it stops with
the fault of the first that cannot be done. -/
inductive Effect.Performs (x : Effect Value) : List Operation → Int → Prop
  | completes {ops : List Operation} {w : Word} : x = .pure (.int w) → (∀ o ∈ ops, ¬ o.Fails) →
      Performs x ops w.toInt
  | stops {front back : List Operation} {o : Operation} {n : Int} : x = ⟨"", .error o.fault⟩ →
      (∀ p ∈ front, ¬ p.Fails) → o.Fails → Performs x (front ++ o :: back) n

namespace Word

theorem ofInt?_eq_none {n : Int} (h : ¬ Holds n) : ofInt? n = none := by
  cases hn : ofInt? n with
  | none => rfl
  | some w =>
    have hrange := exists_ofInt?_iff.1 ⟨w, hn⟩
    exact (h ⟨by omega, by omega⟩).elim

theorem exists_of_holds {n : Int} (h : Holds n) : ∃ w, ofInt? n = some w ∧ w.toInt = n := by
  obtain ⟨hge, hle⟩ := h
  obtain ⟨w, hw⟩ := (exists_ofInt?_iff (n := n)).2 ⟨by omega, by omega⟩
  exact ⟨w, hw, ofInt?_eq_some_iff.1 hw⟩

theorem holds_toInt (w : Word) : Holds w.toInt := by
  have hge := w.le_toInt
  have hlt := w.toInt_lt
  constructor <;> omega

/-- A quotient of words that no word holds is that of the least one by minus one. -/
theorem holds_tdiv_iff {a b : Word} (hb : b.toInt ≠ 0) :
    Holds (a.toInt.tdiv b.toInt) ↔ ¬ (a.toInt = -2 ^ 63 ∧ b.toInt = -1) := by
  have ha := holds_toInt a
  generalize a.toInt = m at ha ⊢
  generalize b.toInt = n at hb ⊢
  obtain ⟨hge, hle⟩ := ha
  constructor
  · rintro h ⟨rfl, rfl⟩
    revert h
    decide
  · intro hne
    have habs : (m.tdiv n).natAbs = m.natAbs / n.natAbs := Int.natAbs_tdiv m n
    have hquotient : m.natAbs / n.natAbs ≤ m.natAbs := Nat.div_le_self _ _
    by_cases hsmall : m.natAbs / n.natAbs < 2 ^ 63
    · constructor <;> omega
    · have hm : m = -2 ^ 63 := by omega
      have hone : n.natAbs = 1 := by
        by_contra hn
        have hhalf : m.natAbs / n.natAbs ≤ m.natAbs / 2 := Nat.div_le_div_left (by omega) (by omega)
        omega
      have hn : n = 1 := by omega
      subst hm hn
      decide

end Word

namespace Effect

variable {x : Effect Value} {ops ops' : List Operation} {n : Int}

theorem pure_bind {α β : Type} (a : α) (f : α → Effect β) : (pure a).bind f = f a := by
  change (⟨"" ++ (f a).printed, (f a).result⟩ : Effect β) = f a
  rw [String.empty_append]

theorem performs_fault {o : Operation} (h : o.Fails) : Performs ⟨"", .error o.fault⟩ [o] n := by
  have hstops : Performs ⟨"", .error o.fault⟩ ([] ++ [o]) n :=
    .stops rfl (List.forall_mem_nil _) h
  exact hstops

theorem performs_word {o : Operation} (hzero : ¬ o.DividesByZero)
    (hleast : ¬ o.IsRemainderOfLeast) :
    (word o.offset o.symbol (Word.ofInt? o.result)).Performs [o] o.result := by
  by_cases hholds : Word.Holds o.result
  · obtain ⟨w, hw, hn⟩ := Word.exists_of_holds hholds
    rw [hw, ← hn]
    refine .completes rfl (List.forall_mem_singleton.2 ?_)
    rintro (hfails | hfails | hfails)
    · exact hzero hfails
    · exact hleast hfails
    · exact hfails hholds
  · have hfault : o.fault = ⟨o.offset, .overflow o.symbol⟩ := by
      rw [Operation.fault, if_neg hzero]
    rw [Word.ofInt?_eq_none hholds]
    have hstops : Performs ⟨"", .error o.fault⟩ [o] o.result := performs_fault (.inr (.inr hholds))
    rwa [hfault] at hstops

theorem Performs.bind {a : Int} {g : Value → Effect Value} (hx : x.Performs ops a)
    (hg : ∀ w : Word, w.toInt = a → (g (.int w)).Performs ops' n) :
    (x.bind g).Performs (ops ++ ops') n := by
  cases hx with
  | @completes _ w hx hops =>
    rw [hx, pure_bind]
    cases hg w rfl with
    | completes hy hops' => exact .completes hy (List.forall_mem_append.2 ⟨hops, hops'⟩)
    | stops hy hfront ho =>
      rw [← List.append_assoc]
      exact .stops hy (List.forall_mem_append.2 ⟨hops, hfront⟩) ho
  | stops hx hfront ho =>
    rw [hx, List.append_assoc, List.cons_append]
    exact .stops rfl hfront ho

theorem performs_negation (offset : Nat) (w : Word) :
    (evalUnary offset .neg (.int w)).Performs [.negation offset w.toInt] (-w.toInt) :=
  performs_word (o := .negation offset w.toInt) id id

theorem performs_zero_division (offset : Nat) (left result : Int) {op : BinaryOp}
    (h : op ∈ [.div, .rem]) : (fault offset .divisionByZero : Effect Value).Performs
      [.binary offset op left 0 result] n := by
  have hzero : Operation.DividesByZero (.binary offset op left 0 result) := ⟨h, rfl⟩
  have hstops := performs_fault (n := n) (.inl hzero)
  rwa [Operation.fault, if_pos hzero] at hstops

theorem performs_division (offset : Nat) (a b : Word) :
    (evalBinary offset .div (.int a) (.int b)).Performs
      [.binary offset .div a.toInt b.toInt (a.toInt.tdiv b.toInt)] (a.toInt.tdiv b.toInt) := by
  unfold evalBinary
  dsimp only
  split
  next hb =>
    subst hb
    exact performs_zero_division offset _ _ (by decide)
  next hb =>
    refine performs_word (o := .binary offset .div a.toInt b.toInt _) ?_ (fun h => nomatch h.1)
    exact fun h => hb (Int64.toInt_inj.1 h.2)

theorem performs_remainder (offset : Nat) (a b : Word) :
    (evalBinary offset .rem (.int a) (.int b)).Performs
      [.binary offset .rem a.toInt b.toInt (a.toInt.tmod b.toInt)] (a.toInt.tmod b.toInt) := by
  unfold evalBinary
  dsimp only
  split
  next hb =>
    subst hb
    exact performs_zero_division offset _ _ (by decide)
  next hb =>
    have hne : b.toInt ≠ 0 := fun h => hb (Int64.toInt_inj.1 h)
    have hzero : ¬ Operation.DividesByZero
        (.binary offset .rem a.toInt b.toInt (a.toInt.tmod b.toInt)) := fun h => hne h.2
    by_cases hleast : a.toInt = -2 ^ 63 ∧ b.toInt = -1
    · have hquotient : Word.div? a b = none :=
        Word.ofInt?_eq_none fun h => (Word.holds_tdiv_iff hne).1 h hleast
      have hfails : Operation.Fails
          (.binary offset .rem a.toInt b.toInt (a.toInt.tmod b.toInt)) := .inr (.inl ⟨rfl, hleast⟩)
      have hstops := performs_fault (n := a.toInt.tmod b.toInt) hfails
      rw [Operation.fault, if_neg hzero] at hstops
      rwa [Word.rem?, hquotient]
    · obtain ⟨w, hw, -⟩ := Word.exists_of_holds ((Word.holds_tdiv_iff hne).2 hleast)
      have hquotient : Word.div? a b = some w := hw
      rw [Word.rem?, hquotient, Option.bind_some]
      exact performs_word (o := .binary offset .rem a.toInt b.toInt _) hzero
        fun h => hleast h.2

theorem performs_binary {op : BinaryOp} {offset : Nat} {a b : Word}
    (h : op.exactResult? a.toInt b.toInt = some n) :
    (evalBinary offset op (.int a) (.int b)).Performs
      [.binary offset op a.toInt b.toInt n] n := by
  have hword (hne : op ≠ .rem ∧ op ≠ .div) : (word offset op.symbol (Word.ofInt? n)).Performs
      [.binary offset op a.toInt b.toInt n] n := by
    refine performs_word (o := .binary offset op a.toInt b.toInt n) ?_ (fun h => hne.1 h.1)
    rintro ⟨hop, -⟩
    simp [hne] at hop
  cases op with
  | add | sub | mul =>
    cases h
    exact hword (by decide)
  | div =>
    cases h
    exact performs_division offset a b
  | rem =>
    cases h
    exact performs_remainder offset a b
  | _ => cases h

end Effect

theorem Frame.Computes.performs {f : Frame} {e : Expr} {ops : List Operation} {n : Int}
    (h : f.Computes e ops n) : (eval f e).Performs ops n := by
  induction h with
  | literal =>
    rw [eval]
    exact .completes rfl (List.forall_mem_nil _)
  | path hlookup =>
    rw [eval, hlookup]
    exact .completes rfl (List.forall_mem_nil _)
  | @neg span _ _ _ _ ih =>
    rw [eval]
    refine ih.bind fun w hw => ?_
    subst hw
    exact Effect.performs_negation span.start w
  | @binary span op _ _ _ _ _ _ _ _ _ hop ihl ihr =>
    rw [eval, List.append_assoc]
    refine ihl.bind fun a ha => ?_
    have hboth : shortCircuit? op (.int a) = none := by cases op <;> rfl
    rw [hboth]
    refine ihr.bind fun b hb => ?_
    subst ha hb
    exact Effect.performs_binary hop

theorem Frame.Fits.exists_computes {f : Frame} {s : Scope} {e : Expr} (h : f.Fits s e)
    (he : e.IsArithmetic) (hty : (s.infer e).ty = some .int) : ∃ ops n, f.Computes e ops n := by
  induction he with
  | literal => exact ⟨_, _, .literal⟩
  | path =>
    obtain ⟨v, -, hlookup, hv⟩ := h.lookup_path hty
    cases v with
    | int n => exact ⟨_, _, .path hlookup⟩
    | _ => cases hv
  | neg _ ih =>
    rw [Scope.infer] at hty
    obtain ⟨hoperand, -⟩ := Inference.ty_unary hty
    obtain ⟨ops, n, hcomputes⟩ := ih (h.part (.operand (.self _))) hoperand
    exact ⟨_, _, hcomputes.neg⟩
  | @binary _ op _ _ hop _ _ ihl ihr =>
    rw [Scope.infer] at hty
    obtain ⟨t, u, ht, hu, hresult⟩ := Inference.ty_binary hty
    -- an arithmetic operator gives a number only of two numbers
    have hboth : t = .int ∧ u = .int ∧ ∀ a b, (op.exactResult? a b).isSome := by
      simp only [BinaryOp.arithmetic, List.mem_cons, List.not_mem_nil, or_false] at hop
      obtain rfl | rfl | rfl | rfl | rfl := hop <;> cases t <;> cases u <;> cases hresult <;>
        exact ⟨rfl, rfl, fun _ _ => rfl⟩
    obtain ⟨rfl, rfl, hexact⟩ := hboth
    obtain ⟨ops, a, hl⟩ := ihl (h.part (.left (.self _))) ht
    obtain ⟨ops', b, hr⟩ := ihr (h.part (.right (.self _))) hu
    obtain ⟨n, hn⟩ := Option.isSome_iff_exists.1 (hexact a b)
    exact ⟨_, _, hl.binary hr hn⟩

/-- An evaluation that performs operations gives their result exactly if all of them can be done,
and else the fault of the first that cannot. -/
theorem Effect.Performs.result_iff {x : Effect Value} {ops : List Operation} {n : Int}
    (h : x.Performs ops n) :
    (∀ v, x.result = .ok v ↔
      (∀ o ∈ ops, ¬ o.Fails) ∧ ∃ w : Word, v = .int w ∧ w.toInt = n) ∧
    ∀ fault, x.result = .error fault ↔
      ∃ o, ops.find? (fun o => o.Fails) = some o ∧ fault = o.fault := by
  cases h with
  | @completes _ w hx hops =>
    have hnone : ops.find? (fun o => o.Fails) = none :=
      List.find?_eq_none.2 fun o ho => by simpa using hops o ho
    rw [hx, hnone]
    constructor
    · intro v
      constructor
      · intro hv
        cases hv
        exact ⟨hops, w, rfl, rfl⟩
      · rintro ⟨-, w', rfl, hw⟩
        rw [Int64.toInt_inj.1 hw]
        rfl
    · exact fun fault => ⟨nofun, fun ⟨_, h, _⟩ => nomatch h⟩
  | @stops front back o _ hx hfront ho =>
    have hfirst : (front ++ o :: back).find? (fun o => o.Fails) = some o := by
      rw [List.find?_eq_some_iff_append]
      exact ⟨by simpa using ho, front, back, rfl, fun p hp => by simpa using hfront p hp⟩
    rw [hx, hfirst]
    constructor
    · intro v
      constructor
      · exact nofun
      · rintro ⟨hall, -⟩
        exact absurd ho (hall o (List.mem_append_right _ List.mem_cons_self))
    · intro fault
      constructor
      · intro hfault
        cases hfault
        exact ⟨o, rfl, rfl⟩
      · rintro ⟨_, h, rfl⟩
        cases h
        rfl

/-- Integer arithmetic is exact or faults. A typed expression of numbers, names and arithmetic
operators performs operations on unbounded integers. Its evaluation gives a number exactly if no
operation divides by zero, takes the remainder of the least word by minus one or leaves the range of
words, and the number is then the exact one; otherwise it gives the fault of the first operation
that does, at the start of its expression: a division by zero if it is one, and else an overflow. -/
theorem integer_arithmetic_is_exact {f : Frame} {s : Scope} {e : Expr} (he : e.IsArithmetic)
    (hty : (s.infer e).ty = some .int) (hfits : f.Fits s e) :
    (∃ ops n, f.Computes e ops n) ∧
    ∀ ops n, f.Computes e ops n →
      (∀ v, (eval f e).result = .ok v ↔
        (∀ o ∈ ops, ¬ o.Fails) ∧ ∃ w : Word, v = .int w ∧ w.toInt = n) ∧
      ∀ fault, (eval f e).result = .error fault ↔
        ∃ o, ops.find? (fun o => o.Fails) = some o ∧ fault = o.fault :=
  ⟨hfits.exists_computes he hty, fun _ _ hcomputes => hcomputes.performs.result_iff⟩

/-- In `x % -1 + 1 / 0`, where `x` is the least word, the remainder overflows before the division
can fault. -/
theorem overflow_of_remainder_before_division :
    let bindings : Bindings := (∅ : Bindings).insert "x" (.int Int64.minValue)
    let f : Frame := ⟨(∅ : Resolutions).insert 0 (.binding "x"), [], bindings⟩
    let s : Scope := ⟨.empty, [], bindings.types⟩
    let e : Expr := .binary ⟨0, 14⟩ .add
      (.binary ⟨0, 6⟩ .rem (.path ⟨0, 1⟩ ["x"]) (.literal ⟨4, 6⟩ (.int (-1))))
      (.binary ⟨9, 14⟩ .div (.literal ⟨9, 10⟩ (.int 1)) (.literal ⟨13, 14⟩ (.int 0)))
    e.IsArithmetic ∧ (s.infer e).ty = some .int ∧ f.Fits s e ∧
      (eval f e).result = .error ⟨0, .overflow "%"⟩ := by
  intro bindings f s e
  have he : e.IsArithmetic :=
    .binary (by decide) (.binary (by decide) (.path _ _) (.literal _ _))
      (.binary (by decide) (.literal _ _) (.literal _ _))
  have hty : (s.infer e).ty = some .int := rfl
  have hpath : s.resolve ["x"] = .ok (some (.binding "x", .int)) := rfl
  have hresolved : s.resolved e = [(0, .binding "x")] := by
    simp only [e, Scope.resolved, hpath, List.append_nil]
  have hfits : f.Fits s e := by
    refine ⟨rfl, fun p hp => ?_⟩
    rw [hresolved, List.mem_singleton] at hp
    rw [hp]
    exact Std.ExtTreeMap.getElem?_insert_self
  have hleast : f.lookup 0 = .int Int64.minValue := rfl
  have hremainder : f.Computes
      (.binary ⟨0, 6⟩ .rem (.path ⟨0, 1⟩ ["x"]) (.literal ⟨4, 6⟩ (.int (-1))))
      [.binary 0 .rem Int64.minValue.toInt (-1 : Word).toInt 0] 0 :=
    .binary (.path hleast) .literal rfl
  have hquotient : f.Computes
      (.binary ⟨9, 14⟩ .div (.literal ⟨9, 10⟩ (.int 1)) (.literal ⟨13, 14⟩ (.int 0)))
      [.binary 9 .div (1 : Word).toInt (0 : Word).toInt 0] 0 :=
    .binary .literal .literal rfl
  have hcomputes : f.Computes e
      [.binary 0 .rem Int64.minValue.toInt (-1 : Word).toInt 0,
        .binary 9 .div (1 : Word).toInt (0 : Word).toInt 0, .binary 0 .add 0 0 0] 0 :=
    hremainder.binary hquotient rfl
  refine ⟨he, hty, hfits, ?_⟩
  exact (((integer_arithmetic_is_exact he hty hfits).2 _ _ hcomputes).2 _).2 ⟨_, rfl, rfl⟩

end ScriptSession
