import ScriptSession.Proofs.Outcome
import ScriptSession.Proofs.Typing
import ScriptSession.Script.Execution
/-!
Evaluation that never falls back. The strict evaluator has no value for an operation on operands
that it is not for, nor for a path without a resolution or a resolution without a value. On an
expression that the checker has typed it is defined and does what evaluation does, and the value it
gives has the type that was inferred.
-/
namespace ScriptSession

namespace Effect

/-- What `x` gives, unless it faults, satisfies `p`. -/
def Gives {α : Type} (x : Effect α) (p : α → Prop) : Prop :=
  ∀ a, x.result = .ok a → p a

theorem gives_pure {α : Type} {a : α} {p : α → Prop} (h : p a) : (pure a).Gives p := by
  intro b hb
  cases hb
  exact h

theorem gives_fault {α : Type} (offset : Nat) (kind : FaultKind) (p : α → Prop) :
    (fault offset kind).Gives p :=
  nofun

theorem gives_word (offset : Nat) (symbol : String) (n : Option Word) :
    (word offset symbol n).Gives (·.ty = .int) := by
  cases n with
  | none => exact gives_fault offset (.overflow symbol) _
  | some n => exact gives_pure rfl

theorem Gives.bind {α β : Type} {x : Effect α} {f : α → Effect β} {p : α → Prop} {q : β → Prop}
    (hx : x.Gives p) (hf : ∀ a, p a → (f a).Gives q) : (x.bind f).Gives q := by
  intro b hb
  unfold Effect.bind at hb
  split at hb
  next a ha => exact hf a (hx a ha) b hb
  · cases hb

def andThen? {α β : Type} (x : Option (Effect α)) (f : α → Option (Effect β)) :
    Option (Effect β) :=
  x.bind fun e => match e.result with
    | .ok a => (f a).map fun y => ⟨e.printed ++ y.printed, y.result⟩
    | .error fault => some ⟨e.printed, .error fault⟩

theorem andThen?_some {α β : Type} {x : Effect α} {f : α → Option (Effect β)} {g : α → Effect β}
    (h : x.Gives fun a => f a = some (g a)) : andThen? (some x) f = some (x.bind g) := by
  simp only [andThen?, Option.bind_some, Effect.bind]
  cases hx : x.result with
  | ok a => simp only [h a hx, Option.map_some]
  | error fault => rfl

end Effect

def Frame.lookup? (f : Frame) (offset : Nat) : Option Value :=
  match f.resolutions[offset]? with
  | some (.binding name) => f.bindings[name]?
  | some (.exported m name) => m.exports[name]?
  | none => none

def evalUnary? (offset : Nat) : UnaryOp → Value → Option (Effect Value)
  | .neg, .int n => some (.word offset "-" (Word.neg? n))
  | .not, .bool b => some (.pure (.bool !b))
  | _, _ => none

def evalBinary? (offset : Nat) (op : BinaryOp) (left right : Value) : Option (Effect Value) :=
  match op, left, right with
  | .add, .int a, .int b => some (.word offset op.symbol (Word.add? a b))
  | .sub, .int a, .int b => some (.word offset op.symbol (Word.sub? a b))
  | .mul, .int a, .int b => some (.word offset op.symbol (Word.mul? a b))
  | .div, .int a, .int b =>
    some (if b = 0 then .fault offset .divisionByZero else .word offset op.symbol (Word.div? a b))
  | .rem, .int a, .int b =>
    some (if b = 0 then .fault offset .divisionByZero else .word offset op.symbol (Word.rem? a b))
  | .add, .str a, .str b => some (.pure (.str (a ++ b)))
  | .eq, a, b => some (.pure (.bool (a = b)))
  | .notEq, a, b => some (.pure (.bool (a ≠ b)))
  | .lt, a, b | .ltEq, a, b | .gt, a, b | .gtEq, a, b =>
    (compareValues? a b).map fun o => .pure (.bool (op.holds o))
  | .and, .bool _, .bool b | .or, .bool _, .bool b => some (.pure (.bool b))
  | _, _, _ => none

def evalCall? (args : List String) (offset : Nat) (name : String) (values : List Value) :
    Option (Effect Value) :=
  match Builtin.ofName? name, values with
  | some .print, [v] => some ((Effect.printLine v.display).bind fun _ => .pure .unit)
  | some .panic, [v] => some (.fault offset (.panic v.display))
  | some .len, [.str s] => some (.pure (.int (.ofNat s.length)))
  | some .str, [v] => some (.pure (.str v.display))
  | some .argc, [] => some (.pure (.int (.ofNat args.length)))
  | some .arg, [.int index] =>
    match argument? args index with
    | some a => some (.pure (.str a))
    | none => some (.fault offset (.argOutOfRange index args.length))
  | _, _ => none

mutual

/-- Evaluates an expression where no step of it needs a fallback. -/
def eval? (f : Frame) : Expr → Option (Effect Value)
  | .literal _ l => some (.pure l.value)
  | .path span _ => (f.lookup? span.start).map .pure
  | .unary span op e => Effect.andThen? (eval? f e) (evalUnary? span.start op)
  | .binary span op l r => Effect.andThen? (eval? f l) fun left =>
    match shortCircuit? op left with
    | some v => some (.pure v)
    | none => Effect.andThen? (eval? f r) (evalBinary? span.start op left)
  | .call span name args => Effect.andThen? (evalAll? f args) (evalCall? f.args span.start name)

def evalAll? (f : Frame) : List Expr → Option (Effect (List Value))
  | [] => some (.pure [])
  | e :: es => Effect.andThen? (eval? f e) fun v =>
    Effect.andThen? (evalAll? f es) fun vs => some (.pure (v :: vs))

end

theorem evalUnary?_eq (offset : Nat) {op : UnaryOp} {v : Value} (h : v.ty = op.operandTy) :
    evalUnary? offset op v = some (evalUnary offset op v) := by
  cases op <;> cases v <;> first | rfl | cases h

theorem evalUnary_gives (offset : Nat) {op : UnaryOp} {v : Value} (h : v.ty = op.operandTy) :
    (evalUnary offset op v).Gives (·.ty = op.operandTy) := by
  cases op with
  | neg =>
    cases v with
    | int n => exact Effect.gives_word _ _ _
    | _ => cases h
  | not =>
    cases v with
    | bool b => exact Effect.gives_pure rfl
    | _ => cases h

theorem evalBinary?_eq (offset : Nat) {op : BinaryOp} {left right : Value} {t : Ty}
    (h : op.resultTy? left.ty right.ty = some t) :
    evalBinary? offset op left right = some (evalBinary offset op left right) := by
  cases op <;> cases left <;> cases right <;> first | rfl | cases h

theorem evalBinary_gives (offset : Nat) {op : BinaryOp} {left right : Value} {t : Ty}
    (h : op.resultTy? left.ty right.ty = some t) :
    (evalBinary offset op left right).Gives (·.ty = t) := by
  cases op with
  | add =>
    cases left <;> cases right <;> cases h
    · exact Effect.gives_word _ _ _
    · exact Effect.gives_pure rfl
  | sub | mul =>
    cases left <;> cases right <;> cases h
    exact Effect.gives_word _ _ _
  | div | rem =>
    cases left <;> cases right <;> cases h
    simp only [evalBinary]
    split
    · exact Effect.gives_fault _ .divisionByZero _
    · exact Effect.gives_word _ _ _
  | eq | notEq =>
    simp only [BinaryOp.resultTy?] at h
    split at h <;> cases h
    exact Effect.gives_pure rfl
  | lt | ltEq | gt | gtEq =>
    cases left <;> cases right <;> cases h <;> exact Effect.gives_pure rfl
  | and | or =>
    cases left <;> cases right <;> cases h
    exact Effect.gives_pure rfl

theorem ty_shortCircuit {op : BinaryOp} {left v : Value} {b t : Ty}
    (hv : shortCircuit? op left = some v) (h : op.resultTy? left.ty b = some t) : v.ty = t := by
  unfold shortCircuit? at hv
  split at hv <;> cases hv
  all_goals cases b <;> cases h; rfl

def Builtin.Takes (param : Option Ty) (t : Ty) : Prop :=
  ∀ expects, param = some expects → expects = t

theorem evalCall_typed (args : List String) (offset : Nat) {name : String} {f : Builtin}
    (hf : Builtin.ofName? name = some f) {values : List Value}
    (hv : List.Forall₂ (fun p v => Builtin.Takes p v.ty) f.params values) :
    evalCall? args offset name values = some (evalCall args offset name values) ∧
      (evalCall args offset name values).Gives (·.ty = f.result) := by
  simp only [evalCall?, evalCall, hf]
  cases f with
  | print =>
    obtain _ | ⟨_, ⟨⟩⟩ := hv
    exact ⟨rfl, fun a ha => by cases ha; rfl⟩
  | panic =>
    obtain _ | ⟨_, ⟨⟩⟩ := hv
    exact ⟨rfl, Effect.gives_fault _ _ _⟩
  | len =>
    obtain _ | ⟨h, ⟨⟩⟩ := hv
    rename_i v
    cases v with
    | str s => exact ⟨rfl, Effect.gives_pure rfl⟩
    | _ => cases h _ rfl
  | str =>
    obtain _ | ⟨_, ⟨⟩⟩ := hv
    exact ⟨rfl, Effect.gives_pure rfl⟩
  | arg =>
    obtain _ | ⟨h, ⟨⟩⟩ := hv
    rename_i v
    cases v with
    | int index =>
      dsimp only
      cases argument? args index with
      | some a => exact ⟨rfl, Effect.gives_pure rfl⟩
      | none => exact ⟨rfl, Effect.gives_fault _ _ _⟩
    | _ => cases h _ rfl
  | argc =>
    obtain ⟨⟩ := hv
    exact ⟨rfl, Effect.gives_pure rfl⟩

/-- Whether a resolution leads to a value of a type, as far as the scope can tell. -/
def Resolution.Leads (s : Scope) (t : Ty) : Resolution → Prop
  | .binding name => s.bindings[name]? = some (some t)
  | .exported m name => ∃ v, m.exports[name]? = some v ∧ v.ty = t

theorem Scope.leads_exported? {m : Module} {name : String} {r : Resolution} {t : Ty} (s : Scope)
    (h : exported? m name = some (r, t)) : r.Leads s t := by
  obtain ⟨v, hv, he⟩ := Option.map_eq_some_iff.1 h
  cases he
  exact ⟨v, hv, rfl⟩

theorem Scope.leads_resolveImported {s : Scope} {name : String} {r : Resolution} {t : Ty}
    (h : s.resolveImported name = .ok (r, t)) : r.Leads s t := by
  unfold resolveImported at h
  split at h
  next m hm =>
    have hmem : m ∈ s.exportersOf name := by rw [hm]; exact List.mem_singleton_self m
    have hname : m.exports.contains name := by
      have := (List.mem_filter.1 hmem).2
      rw [Bool.and_eq_true] at this
      exact this.1
    obtain ⟨v, hv⟩ := Option.isSome_iff_exists.1
      ((Std.ExtTreeMap.contains_eq_isSome_getElem? (a := name)).symm.trans hname)
    have he : exported? m name = some (.exported m name, v.ty) := by
      rw [exported?, hv, Option.map_some]
    rw [he] at h
    cases h
    exact ⟨v, hv, rfl⟩
  · cases h
  · cases h

theorem Scope.leads_resolve {s : Scope} {segments : List String} {r : Resolution} {t : Ty}
    (h : s.resolve segments = .ok (some (r, t))) : r.Leads s t := by
  unfold resolve at h
  split at h
  · cases h
  next name =>
    split at h
    next t' hb => cases h; exact hb
    · cases h
    · obtain ⟨p, hp, he⟩ := Except.map_eq_ok_iff.1 h
      cases he
      exact leads_resolveImported hp
  · obtain ⟨p, hp, he⟩ := Except.map_eq_ok_iff.1 h
    cases he
    unfold resolveQualified at hp
    split at hp
    next m hm =>
      split at hp
      next hx => cases hp; exact s.leads_exported? hx
      · cases hp
    · split at hp <;> cases hp

def Bindings.types (b : Bindings) : Std.ExtTreeMap String (Option Ty) :=
  b.map fun _ v => some v.ty

theorem Bindings.getElem?_types (b : Bindings) (name : String) :
    b.types[name]? = b[name]?.map fun v => some v.ty :=
  Std.ExtTreeMap.getElem?_map

theorem Bindings.types_insert (b : Bindings) (name : String) (v : Value) :
    types (b.insert name v) = b.types.insert name (some v.ty) := by
  apply Std.ExtTreeMap.ext_getElem?
  intro k
  rw [getElem?_types, Std.ExtTreeMap.getElem?_insert, Std.ExtTreeMap.getElem?_insert,
    getElem?_types]
  split <;> rfl

theorem Scope.sound_of_types {s : Scope} {b : Bindings} (h : s.bindings = b.types) : s.Sound := by
  intro name hn
  rw [h, Bindings.getElem?_types] at hn
  cases hb : b[name]? <;> simp only [hb, Option.map_none, Option.map_some] at hn <;> cases hn

/-- The names of a frame hold values of the types that a scope has for them, and the paths of an
expression have the resolutions that the scope finds. -/
structure Frame.Fits (f : Frame) (s : Scope) (e : Expr) : Prop where
  types : s.bindings = f.bindings.types
  kept : ∀ p ∈ s.resolved e, f.resolutions[p.1]? = some p.2

namespace Frame.Fits

variable {f : Frame} {s : Scope}

theorem part {a e : Expr} (h : f.Fits s e) (hp : a.Part e) : f.Fits s a :=
  ⟨h.types, fun p hm => h.kept p (Scope.resolved_part hp hm)⟩

theorem lookup_path {span : Span} {segments : List String} {t : Ty}
    (h : f.Fits s (.path span segments)) (ht : (s.infer (.path span segments)).ty = some t) :
    ∃ v, f.lookup? span.start = some v ∧ f.lookup span.start = v ∧ v.ty = t := by
  obtain ⟨r, hr⟩ := Scope.ty_path ht
  have hk : f.resolutions[span.start]? = some r :=
    h.kept (span.start, r) (by simp only [Scope.resolved, hr, List.mem_singleton])
  have hl := Scope.leads_resolve hr
  cases r with
  | binding name =>
    rw [Resolution.Leads, h.types, Bindings.getElem?_types] at hl
    obtain ⟨v, hv, he⟩ := Option.map_eq_some_iff.1 hl
    refine ⟨v, ?_, ?_, Option.some.inj he⟩
    · simp only [lookup?, hk, hv]
    · simp only [lookup, hk, hv, Option.getD_some]
  | exported m name =>
    obtain ⟨v, hv, he⟩ := hl
    refine ⟨v, ?_, ?_, he⟩
    · simp only [lookup?, hk, hv]
    · simp only [lookup, hk, hv, Option.getD_some]

end Frame.Fits

theorem evalAll_sound {f : Frame} {s : Scope} {args : List Expr}
    (h : ∀ e ∈ args, eval? f e = some (eval f e) ∧
      (eval f e).Gives fun v => (s.infer e).ty = some v.ty) :
    evalAll? f args = some (evalAll f args) ∧
      (evalAll f args).Gives
        (List.Forall₂ (fun (e : Expr) (v : Value) => (s.infer e).ty = some v.ty) args) := by
  induction args with
  | nil => exact ⟨rfl, Effect.gives_pure .nil⟩
  | cons e es ih =>
    obtain ⟨⟨he, hv⟩, hes⟩ := List.forall_mem_cons.1 h
    obtain ⟨hall, hvs⟩ := ih hes
    constructor
    · rw [evalAll?, he, evalAll, hall]
      exact Effect.andThen?_some fun v _ => Effect.andThen?_some fun vs _ => rfl
    · rw [evalAll]
      exact hv.bind fun v hv => hvs.bind fun vs hvs => Effect.gives_pure (.cons hv hvs)

/-- The values of arguments in which nothing is wrong are ones that the parameters take. -/
theorem takes_of_arguments {s : Scope} {name : String} {params : List (Option Ty)}
    {args : List Expr} {values : List Value} (hlen : params.length = args.length)
    (hwrong : (params.zip (s.inferAll args)).flatMap
      (fun p => Inference.argument name p.1 p.2.1 p.2.2) = [])
    (hv : List.Forall₂ (fun (e : Expr) (v : Value) => (s.infer e).ty = some v.ty) args values) :
    List.Forall₂ (fun p v => Builtin.Takes p v.ty) params values := by
  induction hv generalizing params with
  | nil =>
    rw [List.length_nil, List.length_eq_zero_iff] at hlen
    rw [hlen]
    exact .nil
  | cons he _ ih =>
    obtain _ | ⟨p, params⟩ := params
    · cases hlen
    · simp only [Scope.inferAll, List.zip_cons_cons, List.flatMap_cons,
        List.append_eq_nil_iff] at hwrong
      refine .cons ?_ (ih (Nat.succ.inj hlen) hwrong.2)
      rintro expects rfl
      have hone := hwrong.1
      simp only [Inference.argument, he] at hone
      split at hone
      next heq => exact heq
      · cases hone

/-- Evaluating a typed expression needs no fallback and gives a value of its type. -/
theorem eval_sound {f : Frame} {s : Scope} {e : Expr} {t : Ty} (h : f.Fits s e)
    (ht : (s.infer e).ty = some t) :
    eval? f e = some (eval f e) ∧ (eval f e).Gives (·.ty = t) := by
  induction e generalizing t with
  | literal span l =>
    cases ht
    refine ⟨by rw [eval?, eval], ?_⟩
    rw [eval]
    cases l <;> exact Effect.gives_pure rfl
  | path span segments =>
    obtain ⟨v, hv, hl, hty⟩ := h.lookup_path ht
    rw [eval?, eval, hv, hl]
    exact ⟨rfl, Effect.gives_pure hty⟩
  | unary span op e ih =>
    rw [Scope.infer] at ht
    obtain ⟨hi, rfl⟩ := Inference.ty_unary ht
    obtain ⟨he, hv⟩ := ih (h.part (.operand (.self e))) hi
    rw [eval?, eval, he]
    exact ⟨Effect.andThen?_some fun v hr => evalUnary?_eq span.start (hv v hr),
      hv.bind fun v hr => evalUnary_gives span.start hr⟩
  | binary span op l r ihl ihr =>
    rw [Scope.infer] at ht
    obtain ⟨a, b, ha, hb, hop⟩ := Inference.ty_binary ht
    obtain ⟨hl, hlv⟩ := ihl (h.part (.left (.self l))) ha
    obtain ⟨hr, hrv⟩ := ihr (h.part (.right (.self r))) hb
    rw [eval?, eval, hl, hr]
    constructor
    · refine Effect.andThen?_some fun left hleft => ?_
      cases hlv left hleft
      cases hs : shortCircuit? op left with
      | some v => rfl
      | none =>
        refine Effect.andThen?_some fun right hright => ?_
        cases hrv right hright
        exact evalBinary?_eq span.start hop
    · refine hlv.bind fun left hleft => ?_
      cases hleft
      cases hs : shortCircuit? op left with
      | some v => exact Effect.gives_pure (ty_shortCircuit hs hop)
      | none =>
        refine hrv.bind fun right hright => ?_
        cases hright
        exact evalBinary_gives span.start hop
  | call span name args ih =>
    rw [Scope.infer] at ht
    obtain ⟨b, hb, hlen, rfl, hknown, hwrong⟩ := Inference.ty_call ht
    have hlen' : b.params.length = args.length := by
      rw [hlen, Scope.inferAll_eq, List.length_map]
    have hargs : ∀ e ∈ args, eval? f e = some (eval f e) ∧
        (eval f e).Gives fun v => (s.infer e).ty = some v.ty := by
      intro e he
      rw [Scope.inferAll_eq] at hknown
      obtain ⟨t, ht⟩ := Option.isSome_iff_exists.1 (hknown _ (List.mem_map_of_mem he))
      obtain ⟨hev, hv⟩ := ih e he (h.part (.argument he (.self e))) ht
      exact ⟨hev, fun v hr => ht.trans (congrArg some (hv v hr).symm)⟩
    obtain ⟨hall, hvs⟩ := evalAll_sound hargs
    rw [eval?, eval, hall]
    constructor
    · refine Effect.andThen?_some fun values hr => ?_
      exact (evalCall_typed f.args span.start hb (takes_of_arguments hlen' hwrong (hvs _ hr))).1
    · refine hvs.bind fun values hr => ?_
      exact (evalCall_typed f.args span.start hb (takes_of_arguments hlen' hwrong hr)).2

end ScriptSession
