import ScriptSession.Proofs.RoundTrip
import ScriptSession.Proofs.Shape

namespace ScriptSession

namespace Text

/-- Whether a character is shown by its code point. -/
def IsCoded (c : Char) : Prop :=
  quoteChar c = ['\\', 'u', '\x7b'] ++ hexDigits c.toNat ++ ['\x7d']

/-- The ways in which a character is shown: by an escape that stands for it, as a carriage return,
by its code point, or as itself. -/
inductive Shown (c : Char) : List Char → Prop
  | escape {d : Char} : d ≠ '\n' → Token.escaped d = c → c ≠ '\r' → Shown c ['\\', d]
  | return : c = '\r' → Shown c ['\\', 'r']
  | code : Shown c (['\\', 'u', '\x7b'] ++ hexDigits c.toNat ++ ['\x7d'])
  | plain : ¬ (c = '"' ∨ c = '\\' ∨ c = '\n' ∨ c = '\r') → Shown c [c]

theorem shown_quoteChar (c : Char) : Shown c (quoteChar c) := by
  unfold quoteChar
  split
  next h => exact .escape (by decide) h.symm (h ▸ by decide)
  split
  next h => exact .escape (by decide) h.symm (h ▸ by decide)
  split
  next h => exact .return h
  split
  next h => exact .escape (by decide) h.symm (h ▸ by decide)
  split
  next h => obtain rfl | rfl := h <;> exact .escape (by decide) rfl (by decide)
  split
  next => exact .code
  next hr hn hq _ =>
    refine .plain ?_
    rintro (h | h | h | h)
    · exact hq (.inl h)
    · exact hq (.inr h)
    · exact hn h
    · exact hr h

theorem forall_mem_toDigits {b : Nat} {p : Char → Prop} (hb : 1 < b)
    (h : ∀ d < b, p d.digitChar) (n : Nat) : ∀ c ∈ Nat.toDigits b n, p c := by
  induction n using Nat.strongRecOn with
  | ind n ih =>
    obtain hlt | hle := Nat.lt_or_ge n b
    · rw [Nat.toDigits_of_lt_base hlt]
      exact List.forall_mem_singleton.2 (h n hlt)
    · rw [Nat.toDigits_of_base_le hb hle]
      refine List.forall_mem_append.2 ⟨ih _ (Nat.div_lt_self (by omega) hb), ?_⟩
      exact List.forall_mem_singleton.2 (h _ (Nat.mod_lt n (by omega)))

theorem plain_hexDigits (n : Nat) :
    ∀ c ∈ hexDigits n, ¬ (c = '"' ∨ c = '\\' ∨ c = '\n' ∨ c = '\r') := by
  refine forall_mem_toDigits (b := 16) (by decide) ?_ n
  decide

/-- Where each character gives something, a text is given back only if each gives itself. -/
theorem flatMap_eq_self_iff {f : Char → List Char} (hf : ∀ c, f c ≠ []) (cs : List Char) :
    cs.flatMap f = cs ↔ ∀ c ∈ cs, f c = [c] := by
  have hlength (cs : List Char) : cs.length ≤ (cs.flatMap f).length := by
    induction cs with
    | nil => exact Nat.le_refl _
    | cons c cs ih =>
      have := List.length_pos_of_ne_nil (hf c)
      rw [List.flatMap_cons, List.length_append, List.length_cons]
      omega
  induction cs with
  | nil => simp
  | cons c cs ih =>
    rw [List.forall_mem_cons, List.flatMap_cons]
    constructor
    · intro h
      obtain ⟨d, more, hc⟩ := List.exists_cons_of_ne_nil (hf c)
      rw [hc, List.cons_append] at h
      rw [hc]
      obtain ⟨rfl, hrest⟩ := List.cons.inj h
      have hle := congrArg List.length hrest
      have := hlength cs
      rw [List.length_append] at hle
      obtain rfl : more = [] := List.eq_nil_of_length_eq_zero (by omega)
      exact ⟨rfl, ih.1 hrest⟩
    · rintro ⟨hc, hcs⟩
      rw [hc, ih.2 hcs, List.singleton_append]

end Text

theorem Text.Shown.isBody {c : Char} {cs : List Char} (h : Shown c cs) : IsBody cs := by
  cases h with
  | escape hd _ _ => exact .escape hd .nil
  | «return» => exact .escape (by decide) .nil
  | code =>
    have hhex := IsBody.of_plain (plain_hexDigits c.toNat)
    exact .escape (by decide) (.plain (by decide) (hhex.append (.plain (by decide) .nil)))
  | plain hc => exact .plain hc .nil

theorem isBody_quote (cs : List Char) : IsBody (cs.flatMap Text.quoteChar) :=
  .flatMap (fun c => (Text.shown_quoteChar c).isBody) cs

theorem lex_of_munch {c : Char} {cs : List Char} {token : Token} (hc : Lexer.isGap c = false)
    (h : Lexer.munch c cs = (.token token, cs, [])) :
    lex (c :: cs) =
      ⟨[⟨token, String.ofList (c :: cs), ⟨0, Text.byteLength (c :: cs)⟩⟩], []⟩ := by
  have hpieces : Lexer.pieces 0 (c :: cs) = [⟨.token token, c :: cs, 0⟩] := by
    rw [Lexer.pieces_cons hc, h, Lexer.pieces_nil]
  have hlex : lex (c :: cs) = ⟨(lex (c :: cs)).tokens, (lex (c :: cs)).strays⟩ := rfl
  rw [hlex, tokens_lex, strays_lex, hpieces, ← Nat.zero_add (Text.byteLength (c :: cs))]
  rfl

theorem lex_quote (cs : List Char) :
    lex (Text.quote cs) =
      ⟨[⟨.str, String.ofList (Text.quote cs), ⟨0, Text.byteLength (Text.quote cs)⟩⟩], []⟩ :=
  lex_of_munch rfl (Lexer.takeQuote_body (isBody_quote cs) [])

namespace Token

def reread (c : Char) : List Char :=
  decodeOnto [] (Text.quoteChar c)

theorem decodes_code (n : Nat) :
    Decodes (['\\', 'u', '\x7b'] ++ Text.hexDigits n ++ ['\x7d'])
      (['u', '\x7b'] ++ Text.hexDigits n ++ ['\x7d']) := by
  have hdigits : ∀ cs : List Char, (∀ c ∈ cs, c ≠ '\\') → Decodes cs cs := by
    intro cs h
    induction cs with
    | nil => exact decodes_nil
    | cons c cs ih =>
      obtain ⟨hc, hcs⟩ := List.forall_mem_cons.1 h
      exact (decodes_plain hc).append (ih hcs)
  have hhex := hdigits (Text.hexDigits n) fun c hc he =>
    Text.plain_hexDigits n c hc (.inr (.inl he))
  have hopen : Decodes ['\\', 'u', '\x7b'] ['u', '\x7b'] :=
    (decodes_escape 'u').append (decodes_plain (by decide))
  exact (hopen.append hhex).append (decodes_plain (by decide))

/-- A character is read back as itself, unless it is a carriage return or its code is shown. -/
theorem decodes_shown {c : Char} {cs : List Char} (h : Text.Shown c cs) :
    ∃ back, Decodes cs back ∧ back ≠ [] ∧ (back = [c] ↔ c ≠ '\r' ∧
      cs ≠ ['\\', 'u', '\x7b'] ++ Text.hexDigits c.toNat ++ ['\x7d']) := by
  cases h with
  | @escape d _ hd hr =>
    refine ⟨[c], hd ▸ decodes_escape d, List.cons_ne_nil _ _, fun _ => ⟨hr, nofun⟩, fun _ => rfl⟩
  | «return» hc =>
    refine ⟨['r'], decodes_escape 'r', List.cons_ne_nil _ _, ?_, fun h => absurd hc h.1⟩
    rintro h
    subst hc
    cases h
  | code =>
    refine ⟨_, decodes_code c.toNat, List.cons_ne_nil _ _, ?_, fun h => absurd rfl h.2⟩
    intro h
    cases congrArg List.tail h
  | plain hc =>
    refine ⟨[c], decodes_plain fun he => hc (.inr (.inl he)), List.cons_ne_nil _ _, ?_,
      fun _ => rfl⟩
    exact fun _ => ⟨fun he => hc (.inr (.inr (.inr he))), nofun⟩

theorem decodes_quoteChar (c : Char) :
    Decodes (Text.quoteChar c) (reread c) ∧ reread c ≠ [] ∧
      (reread c = [c] ↔ c ≠ '\r' ∧ ¬ Text.IsCoded c) := by
  obtain ⟨back, hdecodes, hback⟩ := decodes_shown (Text.shown_quoteChar c)
  obtain rfl : reread c = back := hdecodes.decodeOnto_eq []
  exact ⟨hdecodes, hback⟩

theorem unescape_quote (cs : List Char) : unescape (Text.quote cs) = cs.flatMap reread := by
  have hbody := decodes_flatMap (fun c => (decodes_quoteChar c).1) cs
  rw [unescape, Text.quote, unquoted_body, hbody.decodeOnto_eq]
  rfl

end Token

/-- A string that is shown to a reader is one string token, which denotes it exactly if no carriage
return and no character with its code shown is in it. -/
theorem displayed_string_reads_back (s : String) :
    let shown := (Value.str s).render
    lex shown.toList = ⟨[⟨.str, shown, ⟨0, Text.byteLength shown.toList⟩⟩], []⟩ ∧
      (Token.unescape shown.toList = s.toList ↔
        '\r' ∉ s.toList ∧ ∀ c ∈ s.toList, ¬ Text.IsCoded c) := by
  intro shown
  have hshown : shown.toList = Text.quote s.toList := String.toList_ofList
  constructor
  · rw [hshown]
    exact lex_quote s.toList
  · have hself := Text.flatMap_eq_self_iff fun c => (Token.decodes_quoteChar c).2.1
    rw [hshown, Token.unescape_quote, hself]
    constructor
    · intro h
      have hc := fun c hc => (Token.decodes_quoteChar c).2.2.1 (h c hc)
      exact ⟨fun hr => (hc _ hr).1 rfl, fun c hm => (hc c hm).2⟩
    · rintro ⟨hr, hcoded⟩ c hc
      exact (Token.decodes_quoteChar c).2.2.2 ⟨fun he => hr (he ▸ hc), hcoded c hc⟩

/-- A control character comes back as the letters of its code. -/
example : Token.unescape (Text.quote ['a', '\t', '\x1b']) =
    ['a', '\t', 'u', '\x7b', '1', 'b', '\x7d'] := by decide

end ScriptSession
