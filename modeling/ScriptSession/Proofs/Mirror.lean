import ScriptSession.Proofs.Binding
import ScriptSession.Proofs.Chain
import ScriptSession.Proofs.Completion

namespace ScriptSession

theorem Call.code_eq_text {c : Call} (h : Directive.scan c.text = []) : c.code = c.text := by
  rw [code, h]
  exact Directive.blank_nil c.text

namespace Outline

/-- A document that a segment is appended to binds its own names and those of the segment. -/
theorem letNames_appendSegment {text segment : String} (ht : LetsBound (lex text.toList).tokens)
    (hs : LetsBound (lex segment.toList).tokens) :
    LetsBound (lex (appendSegment text segment).toList).tokens ∧
      letNames (lex (appendSegment text segment).toList).tokens =
        letNames (lex text.toList).tokens ++ letNames (lex segment.toList).tokens := by
  unfold appendSegment
  split
  next h =>
    subst h
    refine ⟨ht, ?_⟩
    rw [String.toList_empty, tokens_lex_nil]
    exact (List.append_nil _).symm
  · split
    next h =>
      obtain rfl | hback := h
      · rw [String.empty_append, String.toList_empty, tokens_lex_nil]
        exact ⟨hs, rfl⟩
      · rw [String.back?_eq] at hback
        obtain ⟨front, hfront⟩ := List.getLast?_eq_some_iff.1 hback
        have htokens : (lex text.toList).tokens = (lex front).tokens := by
          rw [hfront, tokens_lex_newline, tokens_lex_nil, List.map_nil, List.append_nil]
        rw [String.toList_append, hfront, List.append_assoc, List.singleton_append]
        rw [htokens] at ht
        rw [← hfront, htokens]
        exact letNames_newline ht hs
    next =>
      rw [String.toList_append, String.toList_append, List.append_assoc]
      exact letNames_newline ht hs

end Outline

theorem committedOf_binds {c : Call} {files : FileTree} {options : Options}
    {prior : Option EngineState} {cancelled : Bool} {state : EngineState} {printed : String}
    (hlines : Outline.LetsOnOneLine c.code.toList)
    (hvalues : ∀ d ∈ Directive.scan c.text, ∀ v ∈ d.value.toList, v ≠ '\\' ∧ v ≠ '\r')
    (hrun : Engine.run files c.code options prior cancelled = .ok (state, printed)) :
    let segment := committedOf c.text c.code state
    Outline.LetsBound (lex segment.toList).tokens ∧
      ∀ name, name ∈ state.bindings ↔ name ∈ (Engine.base prior).bindings ∨
        name ∈ Outline.letNames (lex segment.toList).tokens := by
  obtain ⟨front, back, hparse, hnames, hdone, hfaulted⟩ := Engine.run_binds hrun
  unfold committedOf
  cases hf : state.fault with
  | none =>
    rw [hdone hf, List.append_nil] at hparse
    obtain ⟨hbound, hlets⟩ := (parse_eq_ok_iff.1 hparse).2.letNames_eq
    obtain ⟨htext, hletstext⟩ := Directive.letNames_blank hvalues rfl hlines hbound
    refine ⟨htext, fun name => ?_⟩
    dsimp only
    rw [hletstext, hnames]
    exact or_congr Iff.rfl (hlets ▸ Iff.rfl)
  | some fault =>
    obtain ⟨s, rest, rfl, hlength⟩ := hfaulted (by rw [hf]; nofun)
    obtain ⟨hcut, hlets⟩ := letNames_cut hparse hlines
    dsimp only
    rw [String.toList_ofList, hlength]
    exact ⟨hcut, fun name => by rw [hnames, hlets]⟩

namespace Session

def bindings (s : Session) : Bindings :=
  (Engine.base (s.link.map (·.engine))).bindings

/-- Whether the document of a session binds what its state binds. -/
structure Mirrors (s : Session) : Prop where
  closed : Outline.LetsBound (lex s.workspace.current.text.toList).tokens
  names : ∀ name, name ∈ s.bindings ↔
    name ∈ Outline.letNames (lex s.workspace.current.text.toList).tokens

theorem Mirrors.step {s s' : Session} {c : Call} {result : EvaluationResult} (h : s.Mirrors)
    (hlines : Outline.LetsOnOneLine c.code.toList)
    (hvalues : ∀ d ∈ Directive.scan c.text, ∀ v ∈ d.value.toList, v ≠ '\\' ∧ v ≠ '\r')
    (hstep : Step s c result s') : s'.Mirrors := by
  cases hstep with
  | stays => exact ⟨h.closed, h.names⟩
  | @moves files service link options printed _ _ hrun _ =>
    obtain ⟨hsegment, hbinds⟩ := committedOf_binds hlines hvalues hrun
    obtain ⟨hclosed, hnames⟩ := Outline.letNames_appendSegment h.closed hsegment
    refine ⟨hclosed, fun name => ?_⟩
    have hname := (hbinds name).trans (or_congr (h.names name) Iff.rfl)
    rw [← List.mem_append, ← hnames] at hname
    exact hname

theorem mirrors_fresh (files : FileTree) (config : SessionConfig) (settings : ResolverSettings)
    (references : ArtifactSet) (service : ReferenceService) :
    (fresh files config settings references service).Mirrors := by
  have htokens : (lex "".toList).tokens = [] := tokens_lex_nil
  constructor
  · change Outline.LetsBound (lex "".toList).tokens
    rw [htokens]
    trivial
  · intro name
    change name ∈ (∅ : Bindings) ↔ name ∈ Outline.letNames (lex "".toList).tokens
    rw [htokens]
    exact iff_of_false Std.ExtTreeMap.not_mem_empty List.not_mem_nil

theorem Step.completions {s s' : Session} {c : Call} {result : EvaluationResult}
    (h : Step s c result s') : s'.completions = s.completions := by
  cases h <;> rfl

/-- What is offered for a candidate text that was not asked about before. -/
theorem complete_of_entries {s : Session} (h : s.completions.entries = []) (text : String)
    (caret now : Nat) :
    (s.complete text caret now).1 = ScriptSession.complete (s.workspace.withText text) caret := by
  unfold complete Cache.getOrInsert Cache.get?
  rw [h]
  rfl

theorem Mirrors.mem_namesInScope {s : Session} (h : s.Mirrors)
    (htext : s.workspace.current.text = s.workspace.current.committedText) (text name : String) :
    name ∈ (Completion.namesInScope (s.workspace.withText text)).1 ↔
      name ∈ s.bindings ∨ name ∈ Outline.bindings text := by
  change name ∈ Outline.bindings s.workspace.current.committedText ++ Outline.bindings text ↔ _
  rw [← htext, List.mem_append, h.names, Outline.bindings, List.mem_eraseDups]

/-- After any run of calls the document of a session binds exactly the names that are bound in its
state, and completion of a plain name offers these and those of the candidate text, and no other
bindings. Emptying directive lines moves nothing, so the lines on which a `let` and its name stand
are those of the text. -/
theorem document_binds_what_state_binds {host : Host} {config : SessionConfig} {s : Session}
    {files : FileTree} {calls : List Call} (hstart : start host config = (.ok s, files))
    (hlines : ∀ c ∈ calls, Outline.LetsOnOneLine c.code.toList)
    (hvalues : ∀ c ∈ calls, ∀ d ∈ Directive.scan c.text, ∀ v ∈ d.value.toList,
      v ≠ '\\' ∧ v ≠ '\r') :
    let s' := s.after calls
    (∀ name, name ∈ s'.bindings ↔ name ∈ Outline.bindings s'.workspace.current.text) ∧
      ∀ text caret now, let word := Completion.wordBefore (Text.takeBytes caret text.toList)
        '.' ∉ word →
        (∀ name, name ∈ s'.bindings ∨ name ∈ Outline.bindings text → word <+: name.toList →
          ∃ i ∈ (s'.complete text caret now).1, i.label = name) ∧
        ∀ i ∈ (s'.complete text caret now).1, i.kind = .binding →
          i.label ∈ s'.bindings ∨ i.label ∈ Outline.bindings text := by
  intro s'
  have htext := (linked_after hstart calls).text
  obtain ⟨_, _, settings, references, service, -, -, rfl⟩ := start_cases hstart
  have hrun : s'.Mirrors ∧ s'.completions.entries = [] :=
    run_induction (motive := fun _ s => s.Mirrors ∧ s.completions.entries = [])
      (fun c => Outline.LetsOnOneLine c.code.toList ∧
        ∀ d ∈ Directive.scan c.text, ∀ v ∈ d.value.toList, v ≠ '\\' ∧ v ≠ '\r')
      (fun n s c result t hc hs hstep =>
        ⟨hs.1.step hc.1 hc.2 hstep, hstep.completions ▸ hs.2⟩)
      0 calls rfl (fun c hc => ⟨hlines c hc, hvalues c hc⟩) ⟨mirrors_fresh .., rfl⟩
  obtain ⟨hmirrors, hempty⟩ := hrun
  constructor
  · intro name
    rw [Outline.bindings, List.mem_eraseDups]
    exact hmirrors.names name
  · intro text caret now word hdot
    rw [complete_of_entries hempty]
    obtain ⟨hoffered, honly⟩ := Completion.complete_bindings (d := s'.workspace.withText text) hdot
    constructor
    · intro name hname
      exact hoffered name ((hmirrors.mem_namesInScope htext text name).2 hname)
    · intro i hi hk
      exact (hmirrors.mem_namesInScope htext text i.label).1 (honly i hi hk)

/-- A call that binds a name, and one that binds another and faults after it. -/
theorem document_of_binding_and_fault :
    let config : SessionConfig := { searchPaths := ⟨[⟨"/s"⟩], none⟩ }
    let calls : List Call :=
      [⟨.small, "let x = 1;", [], .never⟩, ⟨.small, "let y = 2;\n1 / 0;", [], .never⟩]
    ∃ s files, start .small config = (.ok s, files) ∧
      ∀ name, name ∈ (s.after calls).bindings ↔
        name ∈ Outline.bindings (s.after calls).workspace.current.text := by
  intro config calls
  have hok : (start .small config).1.isOk := by decide +kernel
  rcases hstart : start .small config with ⟨_ | s, files⟩
  · rw [hstart] at hok
    cases hok
  · have hscan : ∀ c ∈ calls, Directive.scan c.text = [] := by decide +kernel
    have hlines : ∀ c ∈ calls, Outline.LetsOnOneLine c.text.toList := by decide +kernel
    refine ⟨s, files, rfl, (document_binds_what_state_binds hstart ?_ ?_).1⟩
    · intro c hc
      rw [Call.code_eq_text (hscan c hc)]
      exact hlines c hc
    · intro c hc
      rw [hscan c hc]
      exact nofun

end Session
end ScriptSession
