import Conform.Proofs.Portable.Scalars
import Conform.Proofs.Yaml.Tokens

/-!
# Portable lexemes as YAML tokens

The lexer is `At` a place of a text if the text from there on is to be read and no block collection
is open.  From there it makes one token of each portable lexeme, and two of a colon behind a key:
the key is marked in front of its text only now (`Lexer.At.exists_colon`).

What counts is where the lexer comes to, in no more steps than it goes past characters
(`Lexer.Leads`).  Between the lexemes, white space is passed over (`Lexer.At.exists_rule`).
-/

namespace Conform.Yaml.Lexer

open Cursor Json

/-! ## Tokens with their keys -/

theorem splice_append (marks : List (Nat × Bool)) : ∀ (n : Nat) (ts us : List Token),
    splice marks n (ts ++ us) = splice marks n ts ++ splice marks (n + ts.length) us
  | n, [], us => rfl
  | n, t :: ts, us => by
      rw [List.cons_append, splice, splice_append marks (n + 1) ts us, splice, List.append_assoc,
        List.cons_append, List.length_cons, Nat.add_right_comm, Nat.add_assoc]

theorem splice_singleton {marks : List (Nat × Bool)} {n : Nat} (t : Token)
    (h : ∀ m ∈ marks, m.1 < n) : splice marks n [t] = [t] := by
  have hnone : marks.find? (fun m => m.1 == n) = none :=
    List.find?_eq_none.mpr fun m hm => by simpa using Nat.ne_of_lt (h m hm)
  simp [splice, hnone]

theorem splice_cons {marks : List (Nat × Bool)} {p : Nat} {b : Bool} : ∀ {n : Nat}
    {ts : List Token}, n + ts.length ≤ p → splice ((p, b) :: marks) n ts = splice marks n ts
  | _, [], _ => rfl
  | n, t :: ts, h => by
      rw [List.length_cons] at h
      have hne : ((p, b).1 == n) = false := beq_eq_false_iff_ne.mpr (by dsimp only; omega)
      rw [splice, splice, List.find?_cons, hne, splice_cons (by omega)]

theorem splice_marked (marks : List (Nat × Bool)) (n : Nat) (t : Token) :
    splice ((n, false) :: marks) n [t] = [.key, t] := by
  simp [splice]

/-! ## Places -/

/-- The lexer stands before a text, inside so many collections and no block collection, and has made
these tokens. -/
structure At (l : Lexer) (cs : List Char) (level : Int) (out : List Token) : Prop where
  rest : l.cursor.rest = cs
  flow : l.flow = level
  count : l.count = l.tokens.length
  marks : ∀ m ∈ l.marks, m.1 < l.count
  tokens : splice l.marks 0 l.tokens.reverse = out
  keys : ∀ k ∈ l.keys, k.2.required = false
  indent : l.indent = -1
  indents : l.indents = []
  running : l.finished = false

/-- The lexer comes from one state to another, with no more steps than characters passed. -/
def Leads (l l' : Lexer) : Prop :=
  ∃ n, n + l'.cursor.rest.length ≤ l.cursor.rest.length ∧ ∀ fuel, run (n + fuel) l = run fuel l'

variable {l l' : Lexer} {cs gap : List Char} {level : Int} {out : List Token}

theorem Leads.trans {l'' : Lexer} (h : Leads l l') (h' : Leads l' l'') : Leads l l'' := by
  obtain ⟨n, hn, hrun⟩ := h
  obtain ⟨m, hm, hrun'⟩ := h'
  exact ⟨n + m, by omega, fun fuel => by rw [Nat.add_assoc, hrun, hrun']⟩

namespace At

theorem emit (h : l.At cs level out) (t : Token) (cursor : Cursor) (flow : Int) (allowKey : Bool)
    {keys : List (Int × KeyPlace)} (hkeys : ∀ k ∈ keys, k.2.required = false) :
    At { l with tokens := t :: l.tokens, count := l.count + 1, keys, cursor, flow, allowKey }
      cursor.rest flow (out ++ [t]) where
  rest := rfl
  flow := rfl
  count := congrArg (· + 1) h.count
  marks m hm := Nat.lt_succ_of_lt (h.marks m hm)
  tokens := by
    have hcount : 0 + l.tokens.reverse.length = l.count := by
      rw [List.length_reverse, Nat.zero_add, h.count]
    rw [List.reverse_cons, splice_append, h.tokens, hcount, splice_singleton t h.marks]
  keys := hkeys
  indent := h.indent
  indents := h.indents
  running := h.running

end At

/-! ## Keys -/

/-- The place of the key that may have started on this level. -/
def key? (l : Lexer) : Option (Int × KeyPlace) := l.keys.find? fun k => k.1 == l.flow

theorem find?_filter_of_eq_some {α : Type} {p q : α → Bool} {x : α} (hq : q x = true) :
    ∀ {xs : List α}, xs.find? p = some x → (xs.filter q).find? p = some x
  | y :: xs, h => by
      rw [List.find?_cons] at h
      cases hp : p y with
      | true =>
          rw [hp] at h
          obtain rfl := Option.some.inj h
          rw [List.filter_cons_of_pos hq, List.find?_cons, hp]
      | false =>
          rw [hp] at h
          have hrest := find?_filter_of_eq_some hq h
          rw [List.filter_cons]
          split
          · rw [List.find?_cons, hp]
            exact hrest
          · exact hrest

/-- The place is on the line that was reached, and not too far behind. -/
def IsNear (c : Cursor) (k : KeyPlace) : Prop := k.line = c.line ∧ c.index ≤ k.index + 1024

theorem expireKeys_eq (h : ∀ k ∈ l.keys, k.2.required = false) :
    ∃ keys, l.expireKeys = .ok { l with keys } ∧ (∀ k ∈ keys, k.2.required = false) ∧
      ∀ k, l.key? = some k → IsNear l.cursor k.2 → { l with keys }.key? = some k := by
  have hnone : (l.keys.any fun k => (k.2.line != l.cursor.line ||
      decide (k.2.index + 1024 < l.cursor.index)) && k.2.required) = false :=
    List.any_eq_false.mpr fun k hk => by simp [h k hk]
  refine ⟨l.keys.filter fun k => !(k.2.line != l.cursor.line ||
    decide (k.2.index + 1024 < l.cursor.index)), ?_, ?_, ?_⟩
  · simp only [expireKeys, hnone, Bool.false_eq_true, if_false]
  · exact fun k hk => h k (List.mem_filter.mp hk).1
  · intro k hk hnear
    refine find?_filter_of_eq_some ?_ hk
    simp [hnear.1, hnear.2]

theorem forgetKey_eq (h : ∀ k ∈ l.keys, k.2.required = false) :
    ∃ keys, l.forgetKey = .ok { l with keys } ∧ ∀ k ∈ keys, k.2.required = false := by
  have hnone : (l.keys.any fun k => k.1 == l.flow && k.2.required) = false :=
    List.any_eq_false.mpr fun k hk => by simp [h k hk]
  refine ⟨l.keys.filter fun k => k.1 != l.flow, ?_, ?_⟩
  · simp only [forgetKey, hnone, Bool.false_eq_true, if_false]
  · exact fun k hk => h k (List.mem_filter.mp hk).1

theorem noteKey_eq (h : ∀ k ∈ l.keys, k.2.required = false) (hindent : l.indent = -1) :
    ∃ keys, l.noteKey = .ok { l with keys } ∧ (∀ k ∈ keys, k.2.required = false) ∧
      (l.allowKey = true → ∃ others, keys = (l.flow, ⟨l.count, false, l.cursor.index,
        l.cursor.line, l.cursor.column⟩) :: others) := by
  unfold noteKey
  split
  · have hrequired : (l.inBlock && l.indent == (l.cursor.column : Int)) = false := by
      have hne : l.indent ≠ (l.cursor.column : Int) := by omega
      simp [hne]
    obtain ⟨keys, hforget, hkeys⟩ := forgetKey_eq h
    simp only [hrequired, hforget]
    exact ⟨_, rfl, List.forall_mem_cons.mpr ⟨rfl, hkeys⟩, fun _ => ⟨keys, rfl⟩⟩
  · rename_i hallow
    exact ⟨l.keys, rfl, h, fun hallow' => absurd hallow' hallow⟩

/-! ## Up to the next token -/

/-- The rule for the token at the cursor. -/
def rule (l : Lexer) : Except Fault Lexer :=
  let c := l.cursor
  let x := c.peek
  let separated := isBlankOrEnd (c.peekAt 1)
  if x == '\x00' then l.lexEnd
  else if x == '%' && c.column == 0 then l.lexDirective
  else if c.column == 0 && c.atMarker '-' then l.lexMarker .documentStart
  else if c.column == 0 && c.atMarker '.' then l.lexMarker .documentEnd
  else if x == '[' then l.lexOpening .flowSequenceStart
  else if x == '\x7b' then l.lexOpening .flowMappingStart
  else if x == ']' then l.lexClosing .flowSequenceEnd
  else if x == '\x7d' then l.lexClosing .flowMappingEnd
  else if x == ',' then l.lexComma
  else if x == '-' && separated then l.lexHyphen
  else if x == '?' && (!l.inBlock || separated) then l.lexQuestion
  else if x == ':' && (!l.inBlock || separated) then l.lexColon
  else if x == '*' then l.lexName .alias
  else if x == '&' then l.lexName .anchor
  else if x == '!' then l.lexTag
  else if x == '|' && l.inBlock then l.lexBlock false
  else if x == '>' && l.inBlock then l.lexBlock true
  else if x == '\'' then l.lexQuoted false
  else if x == '"' then l.lexQuoted true
  else if l.startsPlain then l.lexPlain
  else .error .malformed

theorem lexToken_eq (h : l.cursor.peek ≠ '\uFEFF') :
    l.lexToken = (skipToToken (l.cursor.rest.length + 1) l).expireKeys >>=
      fun l => (l.closeBlocks l.cursor.column).rule := by
  have hmark : (l.cursor.index == 0 && l.cursor.peek == '\uFEFF') = false := by simp [h]
  rw [lexToken, hmark]
  rfl

theorem closeBlocks_eq (hindent : l.indent = -1) (hindents : l.indents = []) (column : Int) :
    l.closeBlocks column = l := by
  unfold closeBlocks
  split
  · rw [hindent, hindents, closing]
    simp only [List.replicate_zero, List.nil_append, Nat.add_zero]
    rw [← hindent, ← hindents]
  · rfl

/-- A gap is passed over.  One without line breaks moves the cursor by its length. -/
theorem skipToToken_eq : ∀ (fuel : Nat) {gap : List Char} {l : Lexer}, IsGap gap →
    Text.Stops isFiller cs → gap.length < fuel → l.cursor.rest = gap ++ cs →
      ∃ cursor allowKey, skipToToken fuel l = { l with cursor, allowKey } ∧ cursor.rest = cs ∧
        (l.allowKey = true → allowKey = true) ∧
        ((∀ x ∈ gap, x = ' ') → cursor = l.cursor.skip gap.length)
  | 0, _, _, _, _, h, _ => absurd h (Nat.not_lt_zero _)
  | fuel + 1, gap, l, hgap, hcs, hfuel, hrest => by
      obtain ⟨spaces, more, rfl, hspaces, hmore⟩ := hgap.exists_spaces
      rw [List.append_assoc] at hrest
      obtain ⟨-, hskip⟩ := skipSpaces_eq hspaces (stops_space hmore hcs) hrest
      have hrest' : (l.cursor.skip spaces.length).rest = more ++ cs := rest_skip_append hrest
      have hcomment (c : Cursor) (hc : c.peek ≠ '#') : c.skipComment = c := by
        simp [skipComment, hc]
      rcases hmore with rfl | ⟨x, xs, rfl, hx⟩
      · rw [List.append_nil]
        have hpeek := peek_stops hcs hrest'
        refine ⟨l.cursor.skip spaces.length, l.allowKey, ?_, hrest', id, fun _ => rfl⟩
        simp only [skipToToken, hskip, hcomment _ hpeek.2.2, hpeek, Bool.false_eq_true, if_false]
      · have hpeek : (l.cursor.skip spaces.length).peek = x := peek_of_rest hrest'
        have hisBreak : isBreak x = true ∧ x ≠ '#' ∧ x ≠ ' ' := by
          rcases hx with rfl | rfl <;> decide
        obtain ⟨gap', c', hline, hc', hgap', hlength⟩ :=
          exists_lineBreak hx (fun y hy => hgap y (by simp [hy])) hcs hrest'
        rw [List.length_append, List.length_cons] at hfuel
        obtain ⟨cursor, allowKey, heq, hcursor, hallow, -⟩ := skipToToken_eq fuel
          (l := { l with cursor := c', allowKey := l.allowKey || l.inBlock }) hgap' hcs
          (by omega) hc'
        refine ⟨cursor, allowKey, ?_, hcursor, fun h => hallow (by simp [h]), fun h => ?_⟩
        · simp only [skipToToken, hskip, hcomment _ (hpeek ▸ hisBreak.2.1), hpeek, hisBreak,
            if_true, hline, heq]
        · exact absurd (h x (by simp)) hisBreak.2.2

/-- The lexer `l₁` is `l` after it went past a gap, and about to follow the rule for the next
token. -/
structure Passes (gap : List Char) (l l₁ : Lexer) : Prop where
  tokens : l₁.tokens = l.tokens
  marks : l₁.marks = l.marks
  allowKey : l.allowKey = true → l₁.allowKey = true
  /-- A key that is near enough is kept. -/
  key : ∀ k, l.key? = some k → IsNear (l.cursor.skip gap.length) k.2 → (∀ x ∈ gap, x = ' ') →
    l₁.key? = some k
  run : ∀ fuel l', l₁.rule = .ok l' → Lexer.run (fuel + 1) l = Lexer.run fuel l'

theorem At.exists_rule (h : l.At (gap ++ cs) level out) (hgap : IsGap gap)
    (hcs : Text.Stops isFiller cs) (hmark : cs.head? ≠ some '\uFEFF') :
    ∃ l₁, l₁.At cs level out ∧ Passes gap l l₁ := by
  obtain ⟨keys, hexpire, hkeys, hkeep⟩ := expireKeys_eq h.keys
  obtain ⟨cursor, allowKey, hskip, hcursor, hallow, hspaces⟩ := skipToToken_eq
    (l.cursor.rest.length + 1) (l := { l with keys }) hgap hcs
    (by rw [h.rest, List.length_append]; omega) h.rest
  obtain ⟨keys', hexpire', hkeys', hkeep'⟩ :=
    expireKeys_eq (l := { l with keys, cursor, allowKey }) hkeys
  refine ⟨{ l with keys := keys', cursor, allowKey },
    ⟨hcursor, h.flow, h.count, h.marks, h.tokens, hkeys', h.indent, h.indents, h.running⟩,
    rfl, rfl, hallow, fun k hk hnear hgap' => ?_, fun fuel l' hrule => ?_⟩
  · obtain ⟨hindex, hline⟩ := skip_line h.rest fun x hx => by rw [hgap' x hx]; decide
    have hnear' : IsNear l.cursor k.2 :=
      ⟨hnear.1.trans hline, Nat.le_trans (by omega) hnear.2⟩
    exact hkeep' k (hkeep k hk hnear') (hspaces hgap' ▸ hnear)
  · have hpeek : l.cursor.peek ≠ '\uFEFF' := by
      rw [peek, h.rest]
      cases gap with
      | nil =>
          cases cs with
          | nil => decide
          | cons x cs => exact fun heq => hmark (congrArg some heq)
      | cons x gap =>
          intro heq
          have hx := hgap x List.mem_cons_self
          rw [show x = '\uFEFF' from heq] at hx
          revert hx
          decide
    have hclose := closeBlocks_eq (l := { l with keys := keys', cursor, allowKey })
      h.indent h.indents
    have htoken : { l with keys }.lexToken = .ok l' := by
      rw [lexToken_eq (by exact hpeek), hskip, hexpire']
      exact (congrArg rule (hclose _)).trans hrule
    rw [run_succ, h.running, hexpire]
    simp only [Bool.false_eq_true, if_false, htoken]

theorem Passes.leads {l₁ : Lexer} (h : l.At (gap ++ cs) level out) (hpasses : Passes gap l l₁)
    (hrule : l₁.rule = .ok l') (hlength : l'.cursor.rest.length < cs.length) : Leads l l' := by
  refine ⟨1, ?_, fun fuel => ?_⟩
  · rw [h.rest, List.length_append]
    omega
  · rw [Nat.add_comm]
    exact hpasses.run fuel l' hrule

/-! ## One token for each lexeme -/

variable {x : Char}

theorem atMarker_eq_false {c : Cursor} (h : c.peek ≠ x) : c.atMarker x = false := by
  unfold atMarker peek at *
  cases hrest : c.rest with
  | nil => rfl
  | cons y ys =>
      rw [hrest] at h
      have hne : y ≠ x := h
      simp [hne]

/-- The rules that a character alone decides. -/
theorem rule_eq (l : Lexer) :
    (l.cursor.peek = '[' → l.rule = l.lexOpening .flowSequenceStart) ∧
    (l.cursor.peek = '\x7b' → l.rule = l.lexOpening .flowMappingStart) ∧
    (l.cursor.peek = ']' → l.rule = l.lexClosing .flowSequenceEnd) ∧
    (l.cursor.peek = '\x7d' → l.rule = l.lexClosing .flowMappingEnd) ∧
    (l.cursor.peek = ',' → l.rule = l.lexComma) ∧
    (l.cursor.peek = ':' → l.flow ≠ 0 → l.rule = l.lexColon) ∧
    (l.cursor.peek = '"' → l.rule = l.lexQuoted true) := by
  have hmarkers (h : l.cursor.peek ≠ '-' ∧ l.cursor.peek ≠ '.') :
      l.cursor.atMarker '-' = false ∧ l.cursor.atMarker '.' = false :=
    ⟨atMarker_eq_false h.1, atMarker_eq_false h.2⟩
  refine ⟨?_, ?_, ?_, ?_, ?_, ?_, ?_⟩
  all_goals
    intro h
    have hno := hmarkers (by rw [h]; decide)
    simp [rule, h, hno, inBlock]
  exact fun h h' => absurd h' h

namespace At

variable {l₁ : Lexer} {t : Token}

theorem emits (h : l.At (gap ++ x :: cs) level out) (cursor : Cursor) (flow : Int)
    (allowKey : Bool) (h₁ : l₁.At (x :: cs) level out) (hpasses : Passes gap l l₁)
    {keys : List (Int × KeyPlace)} (hkeys : ∀ k ∈ keys, k.2.required = false)
    (hcursor : cursor.rest.length ≤ cs.length)
    (hl' : l' = { l₁ with
      tokens := t :: l₁.tokens, count := l₁.count + 1, keys, cursor, flow, allowKey })
    (hrule : l₁.rule = .ok l') : Leads l l' ∧ l'.At cursor.rest flow (out ++ [t]) := by
  subst hl'
  exact ⟨hpasses.leads h hrule (Nat.lt_succ_of_le hcursor), h₁.emit t cursor flow allowKey hkeys⟩

theorem rest_skip_one (h : l.At (x :: cs) level out) : (l.cursor.skip 1).rest = cs := by
  show l.cursor.next.rest = cs
  rw [rest_next, h.rest, List.tail_cons]

theorem emits_mark (h : l.At (gap ++ x :: cs) level out) (flow : Int) (allowKey : Bool)
    (h₁ : l₁.At (x :: cs) level out) (hpasses : Passes gap l l₁)
    {keys : List (Int × KeyPlace)} (hkeys : ∀ k ∈ keys, k.2.required = false)
    (hl' : l' = { l₁ with
      tokens := t :: l₁.tokens, count := l₁.count + 1, keys, cursor := l₁.cursor.skip 1, flow,
      allowKey })
    (hrule : l₁.rule = .ok l') : Leads l l' ∧ l'.At cs flow (out ++ [t]) := by
  have hrest := h₁.rest_skip_one
  have hemits := h.emits _ flow allowKey h₁ hpasses hkeys (by rw [hrest]) hl' hrule
  rwa [hrest] at hemits

theorem exists_mark_rule (h : l.At (gap ++ x :: cs) level out) (hgap : IsGap gap)
    (hx : isMark x = true) : ∃ l₁, l₁.At (x :: cs) level out ∧ Passes gap l l₁ := by
  refine h.exists_rule hgap ?_ ?_
  · simp only [isMark, Bool.or_eq_true, beq_iff_eq] at hx
    rcases hx with ((((rfl | rfl) | rfl) | rfl) | rfl) | rfl <;>
      exact Text.stops_cons.mpr (by decide)
  · rintro heq
    obtain rfl := Option.some.inj heq
    revert hx
    decide

theorem exists_opening (h : l.At (gap ++ x :: cs) level out) (hgap : IsGap gap)
    (hx : x = '[' ∧ t = .flowSequenceStart ∨ x = '\x7b' ∧ t = .flowMappingStart) :
    ∃ l', Leads l l' ∧ l'.At cs (level + 1) (out ++ [t]) ∧ l'.allowKey = true := by
  obtain ⟨l₁, h₁, hpasses⟩ :=
    h.exists_mark_rule hgap (by rcases hx with ⟨rfl, -⟩ | ⟨rfl, -⟩ <;> decide)
  have hrule : l₁.rule = l₁.lexOpening t := by
    rcases hx with ⟨rfl, rfl⟩ | ⟨rfl, rfl⟩
    · exact (rule_eq l₁).1 (peek_of_rest h₁.rest)
    · exact (rule_eq l₁).2.1 (peek_of_rest h₁.rest)
  obtain ⟨keys, hnote, hkeys, -⟩ := noteKey_eq h₁.keys h₁.indent
  obtain ⟨hleads, hat⟩ := h.emits_mark (l₁.flow + 1) true h₁ hpasses hkeys rfl
    (hrule.trans (by rw [lexOpening, hnote]; rfl))
  exact ⟨_, hleads, h₁.flow ▸ hat, rfl⟩

theorem exists_closing (h : l.At (gap ++ x :: cs) level out) (hgap : IsGap gap)
    (hx : x = ']' ∧ t = .flowSequenceEnd ∨ x = '\x7d' ∧ t = .flowMappingEnd) :
    ∃ l', Leads l l' ∧ l'.At cs (level - 1) (out ++ [t]) := by
  obtain ⟨l₁, h₁, hpasses⟩ :=
    h.exists_mark_rule hgap (by rcases hx with ⟨rfl, -⟩ | ⟨rfl, -⟩ <;> decide)
  have hrule : l₁.rule = l₁.lexClosing t := by
    rcases hx with ⟨rfl, rfl⟩ | ⟨rfl, rfl⟩
    · exact (rule_eq l₁).2.2.1 (peek_of_rest h₁.rest)
    · exact (rule_eq l₁).2.2.2.1 (peek_of_rest h₁.rest)
  obtain ⟨keys, hforget, hkeys⟩ := forgetKey_eq h₁.keys
  obtain ⟨hleads, hat⟩ := h.emits_mark (l₁.flow - 1) false h₁ hpasses hkeys rfl
    (hrule.trans (by rw [lexClosing, hforget]; rfl))
  exact ⟨_, hleads, h₁.flow ▸ hat⟩

theorem exists_comma (h : l.At (gap ++ ',' :: cs) level out) (hgap : IsGap gap) :
    ∃ l', Leads l l' ∧ l'.At cs level (out ++ [.flowEntry]) ∧ l'.allowKey = true := by
  obtain ⟨l₁, h₁, hpasses⟩ := h.exists_mark_rule hgap (by decide)
  have hrule : l₁.rule = l₁.lexComma := (rule_eq l₁).2.2.2.2.1 (peek_of_rest h₁.rest)
  obtain ⟨keys, hforget, hkeys⟩ := forgetKey_eq h₁.keys
  obtain ⟨hleads, hat⟩ := h.emits_mark l₁.flow true h₁ hpasses hkeys rfl
    (hrule.trans (by rw [lexComma, hforget]; rfl))
  exact ⟨_, hleads, h₁.flow ▸ hat, rfl⟩

end At

/-! ### Texts and keys -/

/-- A text was just read that may turn out to be a key. -/
structure Noted (l : Lexer) (width : Nat) (text : List Char) (out : List Token) : Prop where
  key : ∃ k, l.key? = some (l.flow, k) ∧ k.position + 1 = l.count ∧ k.line = l.cursor.line ∧
    l.cursor.index = k.index + width
  tokens : ∃ ts, l.tokens = .scalar false text :: ts ∧ splice l.marks 0 ts.reverse = out

namespace At

variable {body text : List Char}

theorem exists_text (h : l.At (gap ++ '"' :: (body ++ '"' :: cs)) level out) (hgap : IsGap gap)
    (hbody : Quoted body text) :
    ∃ l', Leads l l' ∧ l'.At cs level (out ++ [.scalar false text]) ∧
      (l.allowKey = true → l'.Noted (body.length + 2) text out) := by
  obtain ⟨l₁, h₁, hpasses⟩ := h.exists_rule hgap (Text.stops_cons.mpr (by decide)) (by simp)
  have hrule : l₁.rule = l₁.lexQuoted true := (rule_eq l₁).2.2.2.2.2.2 (peek_of_rest h₁.rest)
  obtain ⟨keys, hnote, hkeys, hplace⟩ := noteKey_eq h₁.keys h₁.indent
  have hread := readQuoted_quoted hbody h₁.rest
  -- The text and its quotes take so many characters of one line.
  have hlength : ('"' :: (body ++ ['"'])).length = body.length + 2 := by simp
  have hwhole : l₁.cursor.rest = '"' :: (body ++ ['"']) ++ cs := by simp [h₁.rest]
  have hbreaks : ∀ x ∈ '"' :: (body ++ ['"']), isBreak x = false :=
    List.forall_mem_cons.mpr ⟨by decide,
      List.forall_mem_append.mpr ⟨isBreak_quoted hbody, List.forall_mem_singleton.mpr (by decide)⟩⟩
  have hrest := rest_skip_append hwhole
  have hline := skip_line hwhole hbreaks
  rw [hlength] at hrest hline
  obtain ⟨hleads, hat⟩ := h.emits (t := .scalar false text)
    (l₁.cursor.skip (body.length + 2)) l₁.flow false h₁ hpasses hkeys
    (by rw [hrest]; simp; omega) rfl (hrule.trans (by
      rw [lexQuoted, hnote]
      show (readQuoted true l₁.cursor >>= _) = _
      rw [hread]
      rfl))
  rw [hrest] at hat
  refine ⟨_, hleads, h₁.flow ▸ hat, fun hallow => ?_⟩
  obtain ⟨others, rfl⟩ := hplace (hpasses.allowKey hallow)
  refine ⟨⟨⟨l₁.count, false, l₁.cursor.index, l₁.cursor.line, l₁.cursor.column⟩, ?_, rfl,
    hline.2.symm, hline.1⟩, l₁.tokens, rfl, h₁.tokens⟩
  simp [key?]

theorem exists_colon (h : l.At (gap ++ ':' :: cs) level (out ++ [.scalar false text]))
    (hspaces : ∀ x ∈ gap, x = ' ') (hlevel : level ≠ 0) {width : Nat}
    (hnoted : l.Noted width text out) (hwidth : width + gap.length ≤ 1024) :
    ∃ l', Leads l l' ∧ l'.At cs level (out ++ [.key, .scalar false text, .value]) := by
  obtain ⟨⟨k, hkey, hposition, hline, hindex⟩, ts, hts, hout⟩ := hnoted
  have hgap : IsGap gap := fun x hx => by rw [hspaces x hx]; decide
  obtain ⟨l₁, h₁, hpasses⟩ := h.exists_mark_rule hgap (by decide)
  obtain ⟨hindex', hline'⟩ := skip_line h.rest fun x hx => by rw [hspaces x hx]; decide
  have hnear : IsNear (l.cursor.skip gap.length) k := ⟨hline.trans hline'.symm, by omega⟩
  have hkey₁ : l₁.key? = some (l.flow, k) := hpasses.key _ hkey hnear hspaces
  have hrule : l₁.rule = l₁.lexColon :=
    (rule_eq l₁).2.2.2.2.2.1 (peek_of_rest h₁.rest) (by rw [h₁.flow]; exact hlevel)
  have hblock : l₁.inBlock = false := by
    rw [inBlock, h₁.flow]
    exact beq_eq_false_iff_ne.mpr hlevel
  have hcolon : l₁.lexColon = .ok { l₁ with
      cursor := l₁.cursor.skip 1, tokens := .value :: l₁.tokens, count := l₁.count + 1,
      marks := (k.position, false) :: l₁.marks, keys := l₁.keys.filter fun k => k.1 != l₁.flow,
      allowKey := false } := by
    unfold key? at hkey₁
    have hblock' : ({ l₁ with keys := l₁.keys.filter fun k => k.1 != l₁.flow } : Lexer).inBlock =
      false := hblock
    rw [lexColon, hkey₁]
    simp only [hblock', Bool.false_eq_true, if_false]
    rfl
  refine ⟨_, hpasses.leads h (hrule.trans hcolon) ?_, ?_⟩
  · show (l₁.cursor.skip 1).rest.length < _
    rw [h₁.rest_skip_one, List.length_cons]
    omega
  · have hposition' : k.position = ts.length := by
      have hcount := h.count
      rw [hts, List.length_cons] at hcount
      omega
    have htokens : l₁.tokens = .scalar false text :: ts := hpasses.tokens.trans hts
    have hcount : l₁.count = ts.length + 1 := by rw [h₁.count, htokens, List.length_cons]
    have hmarks : ∀ m ∈ (k.position, false) :: l₁.marks, m.1 < ts.length + 1 :=
      List.forall_mem_cons.mpr ⟨by omega, fun m hm => hcount ▸ h₁.marks m hm⟩
    refine ⟨h₁.rest_skip_one, h₁.flow, congrArg (· + 1) h₁.count, fun m hm => ?_, ?_,
      fun k hk => h₁.keys k (List.mem_filter.mp hk).1, h₁.indent, h₁.indents, h₁.running⟩
    · exact hcount ▸ Nat.lt_succ_of_lt (hmarks m hm)
    · have hbefore : splice ((ts.length, false) :: l₁.marks) 0 ts.reverse = out := by
        rw [splice_cons (by rw [List.length_reverse, Nat.zero_add]), hpasses.marks, hout]
      rw [hposition'] at hmarks
      simp only [htokens, hposition', List.reverse_cons, splice_append, hbefore, splice_marked,
        List.length_reverse, List.length_singleton, Nat.zero_add, splice_singleton .value hmarks,
        List.append_assoc]
      rfl

/-! ### Words and the end -/

/-- What begins a word begins no other token. -/
theorem isInitial_plain (hx : isInitial x = true) : isBlankOrEnd x = false ∧ x ≠ '.' ∧
    "-?:,[]\x7b\x7d#&*!|>'\"%@`".toList.contains x = false := by
  have hascii : x.toNat < 0x80 := by
    simp only [isInitial, Bool.or_eq_true, beq_iff_eq] at hx
    rcases hx with ((hx | rfl) | rfl) | rfl
    · exact Number.lt_of_isNumeric (Number.isNumeric_of_isDigit hx)
    all_goals decide
  exact Text.forall_ascii (P := fun x => isInitial x = true → isBlankOrEnd x = false ∧ x ≠ '.' ∧
    "-?:,[]\x7b\x7d#&*!|>'\"%@`".toList.contains x = false) (by decide +kernel) hascii hx

theorem rule_word {w : List Char} {v : Value} (hw : Word w v) (h : l.At (w ++ cs) level out) :
    l.rule = l.lexPlain := by
  obtain ⟨x, xs, rfl, hx | ⟨rfl, d, ds, rfl, hd⟩⟩ := hw.exists_eq_cons
  · have hpeek : l.cursor.peek = x := peek_of_rest h.rest
    obtain ⟨hblank, hpoint, hmarks⟩ := isInitial_plain hx
    have hstarts : l.startsPlain = true := by
      simp only [startsPlain, hpeek, hblank, hmarks]
      rfl
    have hend : x ≠ '\x00' := by
      rintro rfl
      exact absurd hblank (by decide)
    simp only [List.contains_eq_mem, decide_eq_false_iff_not, String.reduceToList, List.mem_cons,
      List.not_mem_nil, or_false, not_or] at hmarks
    have hmarker : l.cursor.atMarker '-' = false ∧ l.cursor.atMarker '.' = false :=
      ⟨atMarker_eq_false (by rw [hpeek]; exact hmarks.1), atMarker_eq_false (by rwa [hpeek])⟩
    simp [rule, hpeek, hmarks, hmarker, hend, hstarts]
  · -- A digit follows the sign, so the sign marks no item and begins no marker.
    have hpeek : l.cursor.peek = '-' := peek_of_rest h.rest
    have hsecond : isBlankOrEnd (l.cursor.peekAt 1) = false := by
      rw [peekAt, h.rest]
      exact (isInitial_plain (by simp [isInitial, hd])).1
    have hmarker : l.cursor.atMarker '-' = false ∧ l.cursor.atMarker '.' = false := by
      refine ⟨?_, atMarker_eq_false (by rw [hpeek]; decide)⟩
      have hne : d ≠ '-' := by
        rintro rfl
        exact absurd hd (by decide)
      simp [atMarker, h.rest, hne]
    simp [rule, hpeek, hsecond, hmarker, startsPlain]

/-- A word is a token, and the white space behind it is passed over with it. -/
theorem exists_word {w : List Char} {v : Value} {behind : List Char} (hw : Word w v)
    (h : l.At (gap ++ (w ++ (behind ++ cs))) level out) (hgap : IsGap gap) (hbehind : IsGap behind)
    (hcs : Closes cs) (hlevel : level ≠ 0 ∨ cs = []) :
    ∃ l', Leads l l' ∧ l'.At cs level (out ++ [.scalar true w]) := by
  obtain ⟨x, xs, rfl, -⟩ := hw.exists_eq_cons
  have hx := isWordChar_of_mem hw x List.mem_cons_self
  have hfiller : isFiller x = false := by simp [isFiller, isWordChar_plain hx]
  have hmark : x ≠ '\uFEFF' := by
    rintro rfl
    exact absurd hx (by decide)
  obtain ⟨l₁, h₁, hpasses⟩ :=
    h.exists_rule hgap (Text.stops_cons.mpr hfiller) (fun heq => hmark (Option.some.inj heq))
  have hflow : (!l₁.inBlock) = true ∨ cs = [] :=
    hlevel.imp_left fun hne => by simp [inBlock, h₁.flow, hne]
  obtain ⟨keys, hnote, hkeys, -⟩ := noteKey_eq h₁.keys h₁.indent
  obtain ⟨crossed, c, hread, hc⟩ :=
    exists_readPlain_word hw (l₁.indent + 1) hbehind hcs hflow h₁.rest
  have hlex : l₁.lexPlain = .ok { l₁ with
      tokens := .scalar true (x :: xs) :: l₁.tokens, count := l₁.count + 1, keys, cursor := c,
      allowKey := crossed } := by
    rw [lexPlain, hnote]
    have hread' : readPlain (!inBlock { l₁ with keys }) (l₁.indent + 1) l₁.cursor =
        (x :: xs, crossed, c) := hread
    simp only [bind, Except.bind, hread']
    rfl
  obtain ⟨hleads, hat⟩ := h.emits c _ crossed h₁ hpasses hkeys (by rw [hc]; simp; omega) rfl
    ((rule_word hw h₁).trans hlex)
  exact ⟨_, hleads, h₁.flow ▸ hc ▸ hat⟩

theorem run_end (h : l.At gap level out) (hgap : IsGap gap) (fuel : Nat) :
    run (fuel + 2) l = out ++ [.streamEnd] := by
  rw [← List.append_nil gap] at h
  obtain ⟨l₁, h₁, hpasses⟩ := h.exists_rule hgap Text.stops_nil nofun
  have hpeek : l₁.cursor.peek = '\x00' := by rw [peek, h₁.rest]; rfl
  have hrule : l₁.rule = l₁.lexEnd := by simp [rule, hpeek]
  obtain ⟨keys, hforget, hkeys⟩ := forgetKey_eq h₁.keys
  have hend : l₁.lexEnd = .ok { l₁ with
      tokens := .streamEnd :: l₁.tokens, count := l₁.count + 1, allowKey := false, keys := [],
      finished := true } := by
    rw [lexEnd, closeBlocks_eq h₁.indent h₁.indents, hforget]
    rfl
  have hemit := (h₁.emit .streamEnd l₁.cursor l₁.flow false hkeys).tokens
  rw [hpasses.run (fuel + 1) _ (hrule.trans hend), run_succ, if_pos rfl]
  exact hemit

end At

theorem at_start (text : List Char) : (start text).At text 0 [] :=
  ⟨rfl, rfl, rfl, List.forall_mem_nil _, rfl, List.forall_mem_nil _, rfl, rfl, rfl⟩

end Conform.Yaml.Lexer
