import ScriptSession.Proofs.Retention
import ScriptSession.Proofs.Run

namespace ScriptSession

namespace Cache

variable {α : Type}

/-- Whether a cache is right about a workspace: it knows no project that is still to come, and of
the current one only answers as they are. -/
structure Answers (c : Cache α) (w : Workspace) (answer : CacheKey → α) : Prop where
  known : ∀ e ∈ c.entries, e.key.project < w.nextId
  current : ∀ e ∈ c.entries, e.key.project = w.current.project.id → e.value = answer e.key

section Answers

variable {c : Cache α} {w : Workspace} {answer : CacheKey → α}

theorem answers_new (capacity ttl : Nat) (w : Workspace) (answer : CacheKey → α) :
    (new capacity ttl).Answers w answer :=
  ⟨List.forall_mem_nil _, List.forall_mem_nil _⟩

/-- A question about the current project is answered right, and the answer is kept as such, however
much time has passed and whatever had to go. -/
theorem Answers.getOrInsert (h : c.Answers w answer) (hid : w.current.project.id < w.nextId)
    (key : CacheKey) (hkey : key.project = w.current.project.id) (now : Nat) (compute : Unit → α)
    (hcompute : compute () = answer key) :
    (c.getOrInsert key now compute).1 = answer key ∧
      (c.getOrInsert key now compute).2.Answers w answer := by
  unfold Cache.getOrInsert
  cases hget : c.get? key now with
  | some value =>
    obtain ⟨e, he, rfl, -, rfl⟩ := exists_of_get? hget
    exact ⟨h.current e he hkey, h.known, h.current⟩
  | none =>
    refine ⟨hcompute, fun e he => ?_, fun e he hcurrent => ?_⟩
    · obtain ⟨hold, -⟩ | rfl := mem_of_mem_insert he
      · exact h.known e hold
      · exact hkey ▸ hid
    · obtain ⟨hold, -⟩ | rfl := mem_of_mem_insert he
      · exact h.current e hold hcurrent
      · exact hcompute

theorem Answers.commit (h : c.Answers w answer) (files : FileTree) (text : String)
    (artifacts : ArtifactSet) (imports : Names) (next : CacheKey → α) :
    c.Answers (w.commit files text artifacts imports) next := by
  refine ⟨fun e he => Nat.lt_succ_of_lt (h.known e he), fun e he hcurrent => ?_⟩
  exact absurd hcurrent (Nat.ne_of_lt (h.known e he))

end Answers

end Cache

namespace Workspace

def offers (w : Workspace) (k : CacheKey) : List CompletionItem :=
  ScriptSession.complete (w.withText k.text) (k.caret.getD 0)

def highlights (w : Workspace) (k : CacheKey) : List HighlightSpan :=
  ScriptSession.highlight (w.withText k.text)

end Workspace

namespace Session

structure Remembers (s : Session) : Prop where
  current : s.workspace.current.project.id < s.workspace.nextId
  completions : s.completions.Answers s.workspace s.workspace.offers
  highlights : s.highlights.Answers s.workspace s.workspace.highlights

section Remembers

variable {s t : Session}

theorem Remembers.complete (h : s.Remembers) (text : String) (caret now : Nat) :
    (s.complete text caret now).1 = ScriptSession.complete (s.workspace.withText text) caret ∧
      (s.complete text caret now).2.Remembers := by
  obtain ⟨hanswer, hcache⟩ := h.completions.getOrInsert h.current
    ⟨s.workspace.current.project.id, text, some caret⟩ rfl now
    (fun _ => ScriptSession.complete (s.workspace.withText text) caret) rfl
  exact ⟨hanswer, h.current, hcache, h.highlights⟩

theorem Remembers.highlight (h : s.Remembers) (text : String) (now : Nat) :
    (s.highlight text now).1 = ScriptSession.highlight (s.workspace.withText text) ∧
      (s.highlight text now).2.Remembers := by
  obtain ⟨hanswer, hcache⟩ := h.highlights.getOrInsert h.current
    ⟨s.workspace.current.project.id, text, none⟩ rfl now
    (fun _ => ScriptSession.highlight (s.workspace.withText text)) rfl
  exact ⟨hanswer, h.current, h.completions, hcache⟩

theorem Remembers.begin (h : s.Remembers) (host : Host) (text : String) (cancel : Cancellation) :
    (s.begin host text cancel).2.1.Remembers := by
  unfold Session.begin
  split
  · exact h
  · exact ⟨h.current, h.completions, h.highlights⟩

theorem Remembers.finish (h : s.Remembers) (files : FileTree) (p : Prepared) (args : List String)
    (cancel : Cancellation) : (s.finish files p args cancel).2.Remembers := by
  unfold Session.finish
  split
  · exact ⟨h.current, h.completions, h.highlights⟩
  · exact ⟨Nat.lt_succ_self _, h.completions.commit .., h.highlights.commit ..⟩

theorem Remembers.evaluateWith (h : s.Remembers) (host : Host) (text : String) (args : List String)
    (cancel : Cancellation) : (s.evaluateWith host text args cancel).2.1.Remembers := by
  have hbegin := h.begin host text cancel
  unfold Session.evaluateWith
  rcases hb : s.begin host text cancel with ⟨result | p, t, files⟩
  all_goals
    rw [hb] at hbegin
  · exact hbegin
  · exact hbegin.finish files p args cancel

theorem remembers_fresh (files : FileTree) (config : SessionConfig) (settings : ResolverSettings)
    (references : ArtifactSet) (service : ReferenceService) :
    (fresh files config settings references service).Remembers :=
  ⟨Nat.zero_lt_one, Cache.answers_new .., Cache.answers_new ..⟩

end Remembers

def remembering (s : Session) (completions : Cache (List CompletionItem))
    (highlights : Cache (List HighlightSpan)) : Session :=
  { s with completions, highlights }

section Frame

variable (s : Session) (completions : Cache (List CompletionItem))
  (highlights : Cache (List HighlightSpan))

theorem begin_remembering (host : Host) (text : String) (cancel : Cancellation) :
    (s.remembering completions highlights).begin host text cancel =
      ((s.begin host text cancel).1,
        (s.begin host text cancel).2.1.remembering completions highlights,
        (s.begin host text cancel).2.2) := by
  unfold begin remembering
  dsimp only
  split
  · rfl
  · rfl

theorem finish_remembering (files : FileTree) (p : Prepared) (args : List String)
    (cancel : Cancellation) :
    (s.remembering completions highlights).finish files p args cancel =
      ((s.finish files p args cancel).1,
        (s.finish files p args cancel).2.remembering completions highlights) := by
  unfold finish remembering
  dsimp only
  split
  · rfl
  · rfl

theorem evaluateWith_remembering (host : Host) (text : String) (args : List String)
    (cancel : Cancellation) :
    (s.remembering completions highlights).evaluateWith host text args cancel =
      ((s.evaluateWith host text args cancel).1,
        (s.evaluateWith host text args cancel).2.1.remembering completions highlights,
        (s.evaluateWith host text args cancel).2.2) := by
  unfold evaluateWith
  rw [begin_remembering]
  rcases s.begin host text cancel with ⟨result | p, t, files⟩
  · rfl
  · dsimp only
    rw [finish_remembering]

end Frame

end Session

/-- What a session is asked to do. An evaluation is one call, or it is taken up and ended apart, so
that other requests come between; questions are asked at any times. -/
inductive SessionRequest
  | evaluate (c : Call)
  | begin (c : Call)
  | finish (files : FileTree)
  | complete (text : String) (caret now : Nat)
  | highlight (text : String) (now : Nat)

def SessionRequest.asks : SessionRequest → Bool
  | complete .. | highlight .. => true
  | evaluate _ | begin _ | finish _ => false

/-- What a session answers; an evaluation that is taken up, and one that was not, have no result. -/
inductive SessionAnswer
  | evaluated (outcome : Option (EvaluationResult × String))
  | offered (items : List CompletionItem)
  | highlighted (spans : List HighlightSpan)

def SessionAnswer.evaluates : SessionAnswer → Bool
  | evaluated _ => true
  | offered _ | highlighted _ => false

/-- A session with the submission that is under way in it. -/
structure Dialogue where
  session : Session
  pending : Option (Call × Prepared)

namespace Dialogue

/-- Serves a request; an evaluation that is taken up goes on until it is ended. -/
def serve (d : Dialogue) : SessionRequest → SessionAnswer × Dialogue
  | .evaluate c =>
    let (outcome, session, _) := d.session.evaluateWith c.host c.text c.args c.cancel
    (.evaluated (some outcome), { d with session })
  | .begin c =>
    match d.session.begin c.host c.text c.cancel with
    | (.error result, session, _) => (.evaluated (some (result, "")), { d with session })
    | (.ok p, session, _) => (.evaluated none, ⟨session, some (c, p)⟩)
  | .finish files =>
    match d.pending with
    | none => (.evaluated none, d)
    | some (c, p) =>
      let (outcome, session) := d.session.finish files p c.args c.cancel
      (.evaluated (some outcome), ⟨session, none⟩)
  | .complete text caret now =>
    let (items, session) := d.session.complete text caret now
    (.offered items, { d with session })
  | .highlight text now =>
    let (spans, session) := d.session.highlight text now
    (.highlighted spans, { d with session })

def answers : Dialogue → List SessionRequest → List SessionAnswer
  | _, [] => []
  | d, r :: rest => (d.serve r).1 :: (d.serve r).2.answers rest

def after (d : Dialogue) (requests : List SessionRequest) : Dialogue :=
  requests.foldl (fun d r => (d.serve r).2) d

def remembering (d : Dialogue) (completions : Cache (List CompletionItem))
    (highlights : Cache (List HighlightSpan)) : Dialogue :=
  { d with session := d.session.remembering completions highlights }

theorem remembers_serve {d : Dialogue} (h : d.session.Remembers) (r : SessionRequest) :
    (d.serve r).2.session.Remembers := by
  cases r with
  | evaluate c => exact h.evaluateWith ..
  | begin c =>
    have hbegin := h.begin c.host c.text c.cancel
    rw [serve]
    rcases hb : d.session.begin c.host c.text c.cancel with ⟨result | p, session, files⟩
    all_goals
      rw [hb] at hbegin
      exact hbegin
  | finish files =>
    rw [serve]
    split
    · exact h
    · exact h.finish ..
  | complete text caret now => exact (h.complete text caret now).2
  | highlight text now => exact (h.highlight text now).2

theorem remembers_after {d : Dialogue} (h : d.session.Remembers) (requests : List SessionRequest) :
    (d.after requests).session.Remembers := by
  induction requests generalizing d with
  | nil => exact h
  | cons r rest ih => exact ih (remembers_serve h r)

theorem serve_remembering (d : Dialogue) (completions : Cache (List CompletionItem))
    (highlights : Cache (List HighlightSpan)) {r : SessionRequest} (h : r.asks = false) :
    (d.remembering completions highlights).serve r =
        ((d.serve r).1, (d.serve r).2.remembering completions highlights) ∧
      (d.serve r).1.evaluates = true := by
  cases r with
  | evaluate c =>
    unfold serve remembering
    dsimp only
    rw [Session.evaluateWith_remembering]
    exact ⟨rfl, rfl⟩
  | begin c =>
    unfold serve remembering
    dsimp only
    rw [Session.begin_remembering]
    rcases d.session.begin c.host c.text c.cancel with ⟨result | p, session, files⟩
    · exact ⟨rfl, rfl⟩
    · exact ⟨rfl, rfl⟩
  | finish files =>
    obtain ⟨session, _ | ⟨c, p⟩⟩ := d
    · exact ⟨rfl, rfl⟩
    · unfold serve remembering
      dsimp only
      rw [Session.finish_remembering]
      exact ⟨rfl, rfl⟩
  | complete | highlight => cases h

theorem exists_serve_of_asks (d : Dialogue) {r : SessionRequest} (h : r.asks = true) :
    (∃ completions highlights, (d.serve r).2 = d.remembering completions highlights) ∧
      (d.serve r).1.evaluates = false := by
  cases r with
  | complete text caret now => exact ⟨⟨_, d.session.highlights, rfl⟩, rfl⟩
  | highlight text now => exact ⟨⟨d.session.completions, _, rfl⟩, rfl⟩
  | evaluate | begin | finish => cases h

/-- Without its questions a run gives the same evaluations and ends alike up to what is
remembered. -/
theorem run_without_questions (d : Dialogue) (completions : Cache (List CompletionItem))
    (highlights : Cache (List HighlightSpan)) (requests : List SessionRequest) :
    ((d.remembering completions highlights).answers requests).filter (·.evaluates) =
        d.answers (requests.filter (!·.asks)) ∧
      ∃ completions' highlights', (d.remembering completions highlights).after requests =
        (d.after (requests.filter (!·.asks))).remembering completions' highlights' := by
  induction requests generalizing d completions highlights with
  | nil => exact ⟨rfl, completions, highlights, rfl⟩
  | cons r rest ih =>
    cases hr : r.asks with
    | true =>
      obtain ⟨⟨completions', highlights', hserve⟩, hanswer⟩ :=
        (d.remembering completions highlights).exists_serve_of_asks hr
      have hnext : ((d.remembering completions highlights).serve r).2 =
          d.remembering completions' highlights' := hserve
      obtain ⟨hanswers, hafter⟩ := ih d completions' highlights'
      rw [answers, List.filter_cons_of_neg (by rw [hanswer]; exact Bool.false_ne_true), hnext,
        List.filter_cons_of_neg (by rw [hr]; exact Bool.false_ne_true)]
      refine ⟨hanswers, ?_⟩
      rw [after, List.foldl_cons, hnext]
      exact hafter
    | false =>
      obtain ⟨hserve, hanswer⟩ := d.serve_remembering completions highlights hr
      obtain ⟨hanswers, hafter⟩ := ih (d.serve r).2 completions highlights
      rw [answers, hserve, List.filter_cons_of_pos hanswer, hanswers,
        List.filter_cons_of_pos (by rw [hr]; rfl)]
      refine ⟨rfl, ?_⟩
      rw [after, List.foldl_cons, hserve]
      exact hafter

/-- In every session, with caches of any size and time to live, whatever was evaluated and asked
before and at whatever times, also while a submission is under way: completion and highlighting
answer what they would afresh on the current document with the text. Without the questions the
evaluations have the same results and output, and chain, document and service end alike. -/
theorem questions_are_transparent {host : Host} {config : SessionConfig} {s : Session}
    {files : FileTree} (hstart : Session.start host config = (.ok s, files))
    (requests : List SessionRequest) :
    let d : Dialogue := ⟨s, none⟩
    let now := (d.after requests).session
    let bare := d.after (requests.filter (!·.asks))
    (∀ text caret time, (now.complete text caret time).1 =
        ScriptSession.complete (now.workspace.withText text) caret) ∧
      (∀ text time, (now.highlight text time).1 =
        ScriptSession.highlight (now.workspace.withText text)) ∧
      (d.answers requests).filter (·.evaluates) = d.answers (requests.filter (!·.asks)) ∧
      now = bare.session.remembering now.completions now.highlights ∧
      (d.after requests).pending = bare.pending := by
  intro d now bare
  obtain ⟨_, _, settings, references, service, -, -, rfl⟩ := Session.start_cases hstart
  have hnow : now.Remembers :=
    remembers_after (d := d) (Session.remembers_fresh files config settings references service)
      requests
  obtain ⟨hanswers, completions, highlights, hafter⟩ :=
    d.run_without_questions d.session.completions d.session.highlights requests
  have hdialogue : d.after requests = bare.remembering completions highlights := hafter
  have hsession : now = bare.session.remembering completions highlights :=
    congrArg Dialogue.session hdialogue
  refine ⟨fun text caret time => (hnow.complete text caret time).1,
    fun text time => (hnow.highlight text time).1, hanswers, ?_, ?_⟩
  · rw [hsession]
    rfl
  · rw [hdialogue]
    rfl

/-- A question that is asked before a submission, while it is under way and after it. -/
theorem question_before_and_after_submission :
    let config : SessionConfig := { searchPaths := ⟨[⟨"/s"⟩], none⟩ }
    let ask : SessionRequest := .complete "x" 1 0
    let before : List SessionRequest := [ask, .begin ⟨.small, "let xs = 1;", [], .never⟩, ask]
    let requests := before ++ [.finish Host.small.files, ask]
    ∃ s files, Session.start .small config = (.ok s, files) ∧
      let d : Dialogue := ⟨s, none⟩
      let now := (d.after requests).session
      ((d.after before).session.complete "x" 1 0).1 ≠ (now.complete "x" 1 0).1 ∧
      (now.complete "x" 1 0).1 = ScriptSession.complete (now.workspace.withText "x") 1 ∧
      (d.answers requests).filter (·.evaluates) = d.answers (requests.filter (!·.asks)) := by
  intro config ask before requests
  have hruns : ((Session.start .small config).1.toOption.any fun s =>
      let d : Dialogue := ⟨s, none⟩
      ((d.after before).session.complete "x" 1 0).1 ≠
        ((d.after requests).session.complete "x" 1 0).1) = true := by decide +kernel
  rcases hstart : Session.start .small config with ⟨_ | s, files⟩
  · rw [hstart] at hruns
    cases hruns
  · rw [hstart] at hruns
    obtain ⟨hcomplete, -, hevaluations, -⟩ := questions_are_transparent hstart requests
    exact ⟨s, files, rfl, of_decide_eq_true hruns, hcomplete "x" 1 0, hevaluations⟩

end Dialogue

end ScriptSession
