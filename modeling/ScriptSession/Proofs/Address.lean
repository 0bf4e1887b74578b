import ScriptSession.Proofs.Soundness

namespace ScriptSession

namespace Expr

/-- The node that is reached by going down, at each step to the operand with an index. -/
def node? (e : Expr) : List Nat → Option Expr
  | [] => some e
  | i :: descent => e.operands[i]?.bind fun c => c.node? descent

theorem node?_cons_eq_some_iff {e a : Expr} {i : Nat} {descent : List Nat} :
    e.node? (i :: descent) = some a ↔ ∃ c, e.operands[i]? = some c ∧ c.node? descent = some a := by
  rw [node?, Option.bind_eq_some_iff]

theorem part_of_operand {a c e : Expr} (hc : c ∈ e.operands) (h : a.Part c) : a.Part e := by
  cases e with
  | literal => cases hc
  | path => cases hc
  | unary span op e =>
    obtain rfl := List.mem_singleton.1 hc
    exact .operand h
  | binary span op l r =>
    obtain rfl | hc := List.mem_cons.1 hc
    · exact .left h
    · obtain rfl := List.mem_singleton.1 hc
      exact .right h
  | call span name args => exact .argument hc h

theorem part_iff {a e : Expr} : a.Part e ↔ ∃ descent, e.node? descent = some a := by
  constructor
  · intro h
    induction h with
    | self => exact ⟨[], rfl⟩
    | operand _ ih =>
      obtain ⟨descent, hd⟩ := ih
      exact ⟨0 :: descent, hd⟩
    | left _ ih =>
      obtain ⟨descent, hd⟩ := ih
      exact ⟨0 :: descent, hd⟩
    | right _ ih =>
      obtain ⟨descent, hd⟩ := ih
      exact ⟨1 :: descent, hd⟩
    | argument he _ ih =>
      obtain ⟨i, hi⟩ := List.getElem?_of_mem he
      obtain ⟨descent, hd⟩ := ih
      exact ⟨i :: descent, node?_cons_eq_some_iff.2 ⟨_, hi, hd⟩⟩
  · rintro ⟨descent, hd⟩
    induction descent generalizing e with
    | nil =>
      cases hd
      exact .self a
    | cons i descent ih =>
      obtain ⟨c, hc, hd⟩ := node?_cons_eq_some_iff.1 hd
      exact part_of_operand (List.mem_of_getElem? hc) (ih hd)

theorem pathStarts_of_operand {c e : Expr} (hc : c ∈ e.operands) :
    e.pathStarts = e.operands.flatMap pathStarts := by
  cases e with
  | literal => cases hc
  | path => cases hc
  | unary span op e => rw [pathStarts, operands, List.flatMap_singleton]
  | binary span op l r =>
    rw [pathStarts, operands, List.flatMap_cons, List.flatMap_singleton]
  | call span name args => rw [pathStarts, operands]

theorem mem_pathStarts_of_node? {e : Expr} {descent : List Nat} {span : Span}
    {segments : List String} (h : e.node? descent = some (.path span segments)) :
    span.start ∈ e.pathStarts := by
  induction descent generalizing e with
  | nil =>
    cases h
    rw [pathStarts]
    exact List.mem_singleton_self _
  | cons i descent ih =>
    obtain ⟨c, hc, h⟩ := node?_cons_eq_some_iff.1 h
    have hmem := List.mem_of_getElem? hc
    rw [pathStarts_of_operand hmem]
    exact List.mem_flatMap.2 ⟨c, hmem, ih h⟩

end Expr

/-- Of lists with no element in common and none twice, each element belongs to one. -/
theorem index_unique {α β : Type} {f : α → List β} {xs : List α} (h : (xs.flatMap f).Nodup)
    {i j : Nat} {a b : α} {x : β} (hi : xs[i]? = some a) (hj : xs[j]? = some b) (ha : x ∈ f a)
    (hb : x ∈ f b) : i = j := by
  obtain ⟨hi', rfl⟩ := List.getElem?_eq_some_iff.1 hi
  obtain ⟨hj', rfl⟩ := List.getElem?_eq_some_iff.1 hj
  have hdisjoint := List.pairwise_iff_getElem.1 (List.nodup_flatMap.1 h).2
  obtain hlt | heq | hlt := Nat.lt_trichotomy i j
  · exact (hdisjoint i j hi' hj' hlt ha hb).elim
  · exact heq
  · exact (hdisjoint j i hj' hi' hlt hb ha).elim

theorem Expr.descent_unique {e : Expr} (hn : e.pathStarts.Nodup) {p q : List Nat} {s t : Span}
    {ss ts : List String} (hp : e.node? p = some (.path s ss)) (hq : e.node? q = some (.path t ts))
    (hst : s.start = t.start) : p = q := by
  induction p generalizing e q with
  | nil =>
    cases hp
    cases q with
    | nil => rfl
    | cons j q => cases hq
  | cons i p ih =>
    obtain ⟨c, hc, hp⟩ := node?_cons_eq_some_iff.1 hp
    have hmem := List.mem_of_getElem? hc
    cases q with
    | nil =>
      cases hq
      cases hmem
    | cons j q =>
      obtain ⟨d, hd, hq⟩ := node?_cons_eq_some_iff.1 hq
      rw [pathStarts_of_operand hmem] at hn
      have hij := index_unique hn hc hd (mem_pathStarts_of_node? hp)
        (hst ▸ mem_pathStarts_of_node? hq)
      subst hij
      cases hc.symm.trans hd
      rw [ih ((List.nodup_flatMap.1 hn).1 c hmem) hp hq]

/-- Where a node of a script stands: the index of its statement, and the way down from the
expression of that statement. -/
structure Place where
  statement : Nat
  descent : List Nat

namespace Script

variable {script : Script} {p q : Place}

/-- The node at a place. -/
def node? (script : Script) (p : Place) : Option Expr :=
  (script[p.statement]?.bind (·.kind.value?)).bind (·.node? p.descent)

theorem node?_eq_some_iff {a : Expr} :
    script.node? p = some a ↔
      ∃ s e, script[p.statement]? = some s ∧ s.kind.value? = some e ∧
        e.node? p.descent = some a := by
  rw [node?, Option.bind_eq_some_iff]
  constructor
  · rintro ⟨e, he, ha⟩
    obtain ⟨s, hs, he⟩ := Option.bind_eq_some_iff.1 he
    exact ⟨s, e, hs, he, ha⟩
  · rintro ⟨s, e, hs, he, ha⟩
    exact ⟨e, Option.bind_eq_some_iff.2 ⟨s, hs, he⟩, ha⟩

theorem pathStarts_of_value {s : Stmt} {e : Expr} (h : s.kind.value? = some e) :
    s.pathStarts = e.pathStarts := by
  rw [Stmt.pathStarts, h, Option.map_some, Option.getD_some]

theorem place_unique (hn : script.pathStarts.Nodup) {s t : Span} {ss ts : List String}
    (hp : script.node? p = some (.path s ss)) (hq : script.node? q = some (.path t ts))
    (hst : s.start = t.start) : p = q := by
  obtain ⟨i, p⟩ := p
  obtain ⟨j, q⟩ := q
  obtain ⟨stmt, e, hi, he, hp⟩ := node?_eq_some_iff.1 hp
  obtain ⟨stmt', e', hj, he', hq⟩ := node?_eq_some_iff.1 hq
  have hij := index_unique (f := Stmt.pathStarts) hn hi hj
    (pathStarts_of_value he ▸ Expr.mem_pathStarts_of_node? hp)
    (pathStarts_of_value he' ▸ hst ▸ Expr.mem_pathStarts_of_node? hq)
  dsimp only at hij
  subst hij
  cases hi.symm.trans hj
  cases he.symm.trans he'
  have hnodup : e.pathStarts.Nodup :=
    pathStarts_of_value he ▸ (List.nodup_flatMap.1 hn).1 stmt (List.mem_of_getElem? hi)
  exact congrArg (Place.mk i) (Expr.descent_unique hnodup hp hq hst)

end Script

namespace Scope

theorem mem_resolved_iff {s : Scope} {e : Expr} {n : Nat} {r : Resolution} :
    (n, r) ∈ s.resolved e ↔ ∃ span segments t, Expr.Part (.path span segments) e ∧
      span.start = n ∧ s.resolve segments = .ok (some (r, t)) := by
  constructor
  · intro h
    induction e with
    | literal =>
      rw [resolved] at h
      cases h
    | path span segments =>
      rw [resolved] at h
      split at h
      next r' t hr =>
        cases List.mem_singleton.1 h
        exact ⟨span, segments, t, .self _, rfl, hr⟩
      next => cases h
    | unary span op e ih =>
      rw [resolved] at h
      obtain ⟨s, ss, t, hpart, hr⟩ := ih h
      exact ⟨s, ss, t, .operand hpart, hr⟩
    | binary span op l r ihl ihr =>
      rw [resolved] at h
      obtain h | h := List.mem_append.1 h
      · obtain ⟨s, ss, t, hpart, hr⟩ := ihl h
        exact ⟨s, ss, t, .left hpart, hr⟩
      · obtain ⟨s, ss, t, hpart, hr⟩ := ihr h
        exact ⟨s, ss, t, .right hpart, hr⟩
    | call span name args ih =>
      rw [resolved] at h
      obtain ⟨e, he, h⟩ := List.mem_flatMap.1 h
      obtain ⟨s, ss, t, hpart, hr⟩ := ih e he h
      exact ⟨s, ss, t, .argument he hpart, hr⟩
  · rintro ⟨span, segments, t, hpart, rfl, hr⟩
    apply resolved_part hpart
    simp only [resolved, hr, List.mem_singleton]

end Scope

namespace Checking

/-- The scope that a script has reached before the statement with an index. -/
def scopeAt (scope : Scope) (script : Script) (i : Nat) : Scope :=
  ((script.take i).foldl step (start scope)).scope

theorem mem_resolvedFrom_iff {c : Checking} {script : Script} {q : Nat × Resolution} :
    q ∈ c.resolvedFrom script ↔ ∃ (i : Nat) (s : Stmt), script[i]? = some s ∧
      q ∈ ((script.take i).foldl step c).scope.resolvedIn s := by
  induction script generalizing c with
  | nil => exact iff_of_false List.not_mem_nil fun ⟨_, _, h, _⟩ => nomatch h
  | cons s rest ih =>
    rw [resolvedFrom, List.mem_append, ih]
    constructor
    · rintro (h | ⟨i, s', hs, h⟩)
      · exact ⟨0, s, rfl, h⟩
      · exact ⟨i + 1, s', hs, h⟩
    · rintro ⟨_ | i, s', hs, h⟩
      · cases hs
        exact .inl h
      · exact .inr ⟨i, s', hs, h⟩

/-- What a check keeps are the resolutions of the paths of the script, each in the scope of its
statement. -/
theorem mem_resolvedFrom_start_iff {scope : Scope} {script : Script} {n : Nat} {r : Resolution} :
    (n, r) ∈ (start scope).resolvedFrom script ↔
      ∃ p span segments t, script.node? p = some (.path span segments) ∧ span.start = n ∧
        (scopeAt scope script p.statement).resolve segments = .ok (some (r, t)) := by
  rw [mem_resolvedFrom_iff]
  constructor
  · rintro ⟨i, s, hs, h⟩
    rw [Scope.resolvedIn] at h
    cases he : s.kind.value? with
    | none =>
      rw [he] at h
      cases h
    | some e =>
      rw [he] at h
      obtain ⟨span, segments, t, hpart, hn, hr⟩ := Scope.mem_resolved_iff.1 h
      obtain ⟨descent, hd⟩ := Expr.part_iff.1 hpart
      exact ⟨⟨i, descent⟩, span, segments, t, Script.node?_eq_some_iff.2 ⟨s, e, hs, he, hd⟩, hn, hr⟩
  · rintro ⟨p, span, segments, t, hp, hn, hr⟩
    obtain ⟨s, e, hs, he, hd⟩ := Script.node?_eq_some_iff.1 hp
    refine ⟨p.statement, s, hs, ?_⟩
    rw [Scope.resolvedIn, he]
    exact Scope.mem_resolved_iff.2 ⟨span, segments, t, Expr.part_iff.2 ⟨_, hd⟩, hn, hr⟩

theorem resolves_of_clean {scope : Scope} (hs : scope.Sound) {script : Script}
    (h : (script.foldl step (start scope)).findings.toList = []) {p : Place} {span : Span}
    {segments : List String} (hp : script.node? p = some (.path span segments)) :
    ∃ r t, (scopeAt scope script p.statement).resolve segments = .ok (some (r, t)) := by
  obtain ⟨s, e, hstmt, he, hd⟩ := Script.node?_eq_some_iff.1 hp
  have hback : script.drop p.statement = s :: script.drop (p.statement + 1) :=
    List.drop_eq_getElem?_toList_append.trans (by rw [hstmt]; rfl)
  rw [← List.take_append_drop p.statement script, hback, List.foldl_append, List.foldl_cons] at h
  obtain ⟨hfront, hclean, -⟩ := step_sound (clean_of_foldl h)
  have hsound : (scopeAt scope script p.statement).Sound := sound_foldl hs hfront
  have hpath := Scope.findings_part (Expr.part_iff.2 ⟨_, hd⟩) (hclean e he)
  obtain ⟨t, ht⟩ := Option.isSome_iff_exists.1 (Scope.isSome_ty_infer hsound hpath)
  obtain ⟨r, hr⟩ := Scope.ty_path ht
  exact ⟨r, t, hr⟩

theorem mem_resolutions_iff {scope : Scope} {script : Script} {n : Nat} :
    n ∈ (script.foldl step (start scope)).resolutions ↔
      ∃ r, (n, r) ∈ (start scope).resolvedFrom script := by
  rw [resolutions_foldl, Std.ExtTreeMap.mem_insertMany_list, List.contains_iff_mem, List.mem_map]
  constructor
  · rintro (h | ⟨⟨_, r⟩, hr, rfl⟩)
    · exact (Std.ExtTreeMap.not_mem_empty h).elim
    · exact ⟨r, hr⟩
  · rintro ⟨r, hr⟩
    exact .inr ⟨_, hr, rfl⟩

end Checking

/-- The value that a resolution stands for under some bindings. -/
def Resolution.value? (b : Bindings) : Resolution → Option Value
  | .binding name => b[name]?
  | .exported m name => m.exports[name]?

theorem Frame.lookup_of_kept {f : Frame} {n : Nat} {r : Resolution}
    (h : f.resolutions[n]? = some r) : f.lookup n = (r.value? f.bindings).getD .unit := by
  cases r <;> rw [lookup, h] <;> rfl

/-- Paths of a script that was read from a text start at offsets of their own, wherever they stand.
An accepted check keeps one resolution for each of them and none besides: by the offset where a
path starts both the map and a run find what that path, and no other, resolved to in the scope of
its statement. -/
theorem path_starts_identify_nodes {text : String} {script : Script}
    (hparse : parse text = .ok script) :
    (∀ p q s t ss ts, script.node? p = some (.path s ss) → script.node? q = some (.path t ts) →
      s.start = t.start → p = q) ∧
    ∀ scope checked, scope.Sound → check scope script = .ok checked →
      (∀ n, n ∈ checked.resolutions ↔
        ∃! p, ∃ span segments, script.node? p = some (.path span segments) ∧ span.start = n) ∧
      ∀ p span segments, script.node? p = some (.path span segments) →
        ∃ r t, (Checking.scopeAt scope script p.statement).resolve segments = .ok (some (r, t)) ∧
          checked.resolutions[span.start]? = some r ∧
          ∀ args bindings, eval ⟨checked.resolutions, args, bindings⟩ (.path span segments) =
            .pure ((r.value? bindings).getD .unit) := by
  have hnodup := nodup_pathStarts hparse
  refine ⟨fun p q s t ss ts => Script.place_unique hnodup, ?_⟩
  intro scope checked hsound hcheck
  obtain ⟨hclean, rfl⟩ := check_eq_ok_iff.1 hcheck
  constructor
  · intro n
    rw [Checking.mem_resolutions_iff]
    constructor
    · rintro ⟨r, hr⟩
      obtain ⟨p, span, segments, t, hp, hn, -⟩ := Checking.mem_resolvedFrom_start_iff.1 hr
      refine ⟨p, ⟨span, segments, hp, hn⟩, ?_⟩
      rintro q ⟨span', segments', hq, hn'⟩
      exact Script.place_unique hnodup hq hp (hn'.trans hn.symm)
    · rintro ⟨p, ⟨span, segments, hp, hn⟩, -⟩
      obtain ⟨r, t, hr⟩ := Checking.resolves_of_clean hsound hclean hp
      exact ⟨r, Checking.mem_resolvedFrom_start_iff.2 ⟨p, span, segments, t, hp, hn, hr⟩⟩
  · intro p span segments hp
    obtain ⟨r, t, hr⟩ := Checking.resolves_of_clean hsound hclean hp
    have hkept := getElem?_resolutions hnodup
      (Checking.mem_resolvedFrom_start_iff.2 ⟨p, span, segments, t, hp, rfl, hr⟩)
    refine ⟨r, t, hr, hkept, fun args bindings => ?_⟩
    rw [eval, Frame.lookup_of_kept hkept]

/-- A sum of one name, in parentheses and without. -/
theorem places_of_name_in_parentheses :
    let sum : Expr := .binary ⟨11, 18⟩ .add (.path ⟨11, 14⟩ ["x"]) (.path ⟨17, 18⟩ ["x"])
    let script : Script :=
      [⟨.bind "x" (.literal ⟨8, 9⟩ (.int 1)), ⟨0, 9⟩, true⟩, ⟨.expr sum, ⟨11, 18⟩, false⟩]
    let scope : Scope := ⟨.empty, [], ∅⟩
    let resolutions : Resolutions :=
      ((∅ : Resolutions).insert 11 (.binding "x")).insert 17 (.binding "x")
    parse "let x = 1; (x) + x" = .ok script ∧ scope.Sound ∧
    check scope script = .ok ⟨some .int, resolutions, []⟩ ∧
    script.node? ⟨1, [1]⟩ = some (.path ⟨17, 18⟩ ["x"]) ∧
    (∃! p, ∃ span segments, script.node? p = some (.path span segments) ∧ span.start = 17) ∧
    ∃ r t, (Checking.scopeAt scope script 1).resolve ["x"] = .ok (some (r, t)) ∧
      resolutions[17]? = some r := by
  intro sum script scope resolutions
  have hparse : parse "let x = 1; (x) + x" = .ok script := by decide +kernel
  have hsound : scope.Sound := by
    intro name
    rw [Std.ExtTreeMap.getElem?_empty]
    exact (Option.some_ne_none none).symm
  have hcheck : check scope script = .ok ⟨some .int, resolutions, []⟩ := rfl
  have hnode : script.node? ⟨1, [1]⟩ = some (.path ⟨17, 18⟩ ["x"]) := rfl
  obtain ⟨hkeys, hpaths⟩ := (path_starts_identify_nodes hparse).2 scope _ hsound hcheck
  obtain ⟨r, t, hr, hkept, -⟩ := hpaths _ _ _ hnode
  have hmem : 17 ∈ resolutions := Std.ExtTreeMap.mem_iff_isSome_getElem?.2 (by rw [hkept]; rfl)
  exact ⟨hparse, hsound, hcheck, hnode, (hkeys 17).1 hmem, r, t, hr, hkept⟩

end ScriptSession
