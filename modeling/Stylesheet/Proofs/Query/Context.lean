import Mathlib
import Stylesheet.Proofs.Pattern.Composition
import Stylesheet.Proofs.Pattern.Positional
import Stylesheet.Proofs.Query.Survival

/-! Phrases with a hole for predicates. What the predicates in the hole keep decides what the whole
phrase leads to. Brackets in a phrase stand for nothing else than such a hole. -/

namespace Stylesheet.Query

open Document

/-- A phrase without the predicates that one of its steps has from some place on. -/
inductive Context : Part → Type
  | here : Context .predicates
  | later (p : Phrase .predicate) (c : Context .predicates) : Context .predicates
  | inside (c : Context .predicate) (ps : Phrase .predicates) : Context .predicates
  | not (c : Context .predicate) : Context .predicate
  | selects (c : Context .query) : Context .predicate
  | tested (axis : Option Axis) (t : TestPhrase) (c : Context .predicates) : Context .step
  | last (c : Context .step) : Context .steps
  | joinLeft (c : Context .step) (l : Slash) (ss : Phrase .steps) : Context .steps
  | joinRight (s : Phrase .step) (l : Slash) (c : Context .steps) : Context .steps
  | absolute (l : Slash) (c : Context .steps) : Context .path
  | relative (c : Context .steps) : Context .path
  | alone (c : Context .path) : Context .query
  | unionLeft (c : Context .path) (q : Phrase .query) : Context .query
  | unionRight (p : Phrase .path) (c : Context .query) : Context .query

namespace Context

def fill {k : Part} (c : Context k) (ps : Phrase .predicates) : Phrase k :=
  match c with
  | .here => ps
  | .later p c => .more p (c.fill ps)
  | .inside c qs => .more (c.fill ps) qs
  | .not c => .not (c.fill ps)
  | .selects c => .selects (c.fill ps)
  | .tested axis t c => .tested axis t (c.fill ps)
  | .last c => .last (c.fill ps)
  | .joinLeft c l ss => .join (c.fill ps) l ss
  | .joinRight s l c => .join s l (c.fill ps)
  | .absolute l c => .absolute l (c.fill ps)
  | .relative c => .relative (c.fill ps)
  | .alone c => .alone (c.fill ps)
  | .unionLeft c q => .union (c.fill ps) q
  | .unionRight p c => .union p (c.fill ps)

def before {k : Part} : Context k → List Token
  | .here => []
  | .later p c => .symbol .leftBracket :: (p.tokens ++ .symbol .rightBracket :: c.before)
  | .inside c _ => .symbol .leftBracket :: c.before
  | .not c => .name "not" :: .symbol .leftParen :: c.before
  | .tested axis t c => axisTokens axis ++ (t.tokens ++ c.before)
  | .joinRight s l c => s.tokens ++ .symbol l.symbol :: c.before
  | .absolute l c => .symbol l.symbol :: c.before
  | .unionRight p c => p.tokens ++ .symbol .pipe :: c.before
  | .selects c | .last c | .joinLeft c _ _ | .relative c | .alone c | .unionLeft c _ => c.before

def after {k : Part} : Context k → List Token
  | .here => []
  | .inside c ps => c.after ++ .symbol .rightBracket :: ps.tokens
  | .not c => c.after ++ [.symbol .rightParen]
  | .joinLeft c l ss => c.after ++ .symbol l.symbol :: ss.tokens
  | .unionLeft c q => c.after ++ .symbol .pipe :: q.tokens
  | .later _ c | .selects c | .tested _ _ c | .last c | .joinRight _ _ c | .absolute _ c
  | .relative c | .alone c | .unionRight _ c => c.after

/-- The step is not inside of a predicate. -/
def isOuter {k : Part} : Context k → Bool
  | .here => true
  | .inside _ _ | .not _ | .selects _ => false
  | .later _ c | .tested _ _ c | .last c | .joinLeft c _ _ | .joinRight _ _ c | .absolute _ c
  | .relative c | .alone c | .unionLeft c _ | .unionRight _ c => c.isOuter

variable {k : Part}

theorem tokens_fill (c : Context k) (ps : Phrase .predicates) :
    (c.fill ps).tokens = c.before ++ (ps.tokens ++ c.after) := by
  induction c with
  | here => simp [fill, before, after]
  | _ => simp_all [fill, before, after, Phrase.tokens]

end Context

/-! ### Meaning -/

variable {d : Document}

/-- What a part of a query starts from: a node, or for predicates the nodes along an axis, and for
one of them a position. -/
abbrev Part.Source (d : Document) : Part → Type
  | predicates => Axis × (d.Node → Prop)
  | predicate => Nat
  | _ => d.Node

def Part.Leads (m : d.Node) : (k : Part) → k.Tree → k.Source d → Prop
  | query, q, n => Query.Leads n m q
  | path, p, n => p.Leads n m
  | steps, ss, n => Chain n m ss
  | step, s, n => s.Leads n m
  | predicates, ps, (axis, S) => Survives axis S m ps
  | predicate, p, i => p.Meets m i

def Part.Entails (d : Document) (k : Part) (t t' : k.Tree) : Prop :=
  ∀ (m : d.Node) (x : k.Source d), k.Leads m t x → k.Leads m t' x

theorem Slash.chain_before {n m : d.Node} (l : Slash) (ss : List Step) :
    Chain n m (l.before ss) ↔ ∃ c, Chain n c (l.before []) ∧ Chain c m ss := by
  rw [← chain_append, ← l.before_append, List.nil_append]

theorem Slash.chain_mono {m : d.Node} {ss ts : List Step} (l : Slash)
    (h : ∀ n, Chain n m ss → Chain n m ts) {n : d.Node} (hn : Chain n m (l.before ss)) :
    Chain n m (l.before ts) := by
  obtain ⟨c, hc, hm⟩ := (l.chain_before ss).1 hn
  exact (l.chain_before ts).2 ⟨c, hc, h c hm⟩

theorem Slash.chain_and {m : d.Node} {ss ts : List Step} {P : Prop} (l : Slash)
    (h : ∀ n, Chain n m ss ↔ Chain n m ts ∧ P) (n : d.Node) :
    Chain n m (l.before ss) ↔ Chain n m (l.before ts) ∧ P := by
  simp only [l.chain_before ss, l.chain_before ts, h, ← and_assoc, exists_and_right]

/-- Outside of all predicates it is enough if the one hole keeps what the other keeps. Inside of
them it is not: positions are counted among what is kept, and negations turn it round. -/
theorem Context.entails {k : Part} (c : Context k) {ps qs : Phrase .predicates}
    (h : Part.predicates.Entails d ps.tree qs.tree)
    (h' : c.isOuter = true ∨ Part.predicates.Entails d qs.tree ps.tree) :
    k.Entails d (c.fill ps).tree (c.fill qs).tree := by
  induction c generalizing ps qs with
  | here => exact h
  | later p c ih =>
    rintro m ⟨axis, S⟩ hm
    simp only [Part.Leads, fill, Phrase.tree, Survives] at hm ⊢
    exact ih h h' m (axis, _) hm
  | inside c rs ih =>
    have back := h'.resolve_left Bool.false_ne_true
    rintro m ⟨axis, S⟩ hm
    have same (n : d.Node) (i : Nat) : Predicate.Meets n i (c.fill ps).tree
      ↔ Predicate.Meets n i (c.fill qs).tree := ⟨ih h (.inr back) n i, ih back (.inr h) n i⟩
    simp only [Part.Leads, fill, Phrase.tree, Survives, same] at hm ⊢
    exact hm
  | not c ih =>
    have back := h'.resolve_left Bool.false_ne_true
    intro m i hm
    simp only [Part.Leads, fill, Phrase.tree, Predicate.Meets] at hm ⊢
    exact fun hn => hm (ih back (.inr h) m i hn)
  | selects c ih =>
    intro m i hm
    simp only [Part.Leads, fill, Phrase.tree, Predicate.Meets] at hm ⊢
    obtain ⟨x, hx⟩ := hm
    exact ⟨x, ih h (.inr (h'.resolve_left Bool.false_ne_true)) x m hx⟩
  | tested axis t c ih =>
    intro m n hm
    simp only [Part.Leads, fill, Phrase.tree, Step.Leads] at hm ⊢
    exact ih h h' m (_, _) hm
  | last c ih =>
    intro m n hm
    simp only [Part.Leads, fill, Phrase.tree, Chain] at hm ⊢
    obtain ⟨x, hx, hm⟩ := hm
    exact ⟨x, ih h h' x n hx, hm⟩
  | joinLeft c l ss ih =>
    intro m n hm
    simp only [Part.Leads, fill, Phrase.tree, Chain] at hm ⊢
    obtain ⟨x, hx, hm⟩ := hm
    exact ⟨x, ih h h' x n hx, hm⟩
  | joinRight s l c ih =>
    intro m n hm
    simp only [Part.Leads, fill, Phrase.tree, Chain] at hm ⊢
    obtain ⟨x, hx, hm⟩ := hm
    exact ⟨x, hx, l.chain_mono (ih h h' m) hm⟩
  | absolute l c ih =>
    intro m n hm
    simp only [Part.Leads, fill, Phrase.tree, Path.Leads] at hm ⊢
    exact l.chain_mono (ih h h' m) hm
  | relative c ih =>
    intro m n hm
    simp only [Part.Leads, fill, Phrase.tree, Path.Leads] at hm ⊢
    exact ih h h' m _ hm
  | alone c ih =>
    intro m n hm
    simp only [Part.Leads, fill, Phrase.tree, Leads, or_false] at hm ⊢
    exact ih h h' m n hm
  | unionLeft c q ih =>
    intro m n hm
    simp only [Part.Leads, fill, Phrase.tree, Leads] at hm ⊢
    exact hm.imp_left (ih h h' m n)
  | unionRight p c ih =>
    intro m n hm
    simp only [Part.Leads, fill, Phrase.tree, Leads] at hm ⊢
    exact hm.imp_right (ih h h' m n)

theorem Context.select_eq (c : Context .query) {ps qs : Phrase .predicates}
    (h : Part.predicates.Entails d ps.tree qs.tree)
    (h' : Part.predicates.Entails d qs.tree ps.tree) (n : d.Node) :
    Query.select (c.fill ps).tree n = Query.select (c.fill qs).tree n :=
  select_congr fun m => ⟨c.entails h (.inr h') m n, c.entails h' (.inr h) m n⟩

theorem Context.leads_more {k : Part} (c : Context k) (hk : k ≠ .query) (outer : c.isOuter = true)
    (last : c.after = []) {p : Phrase .predicate} (hp : Predicate.countsPosition p.tree = false)
    (m : d.Node) (x : k.Source d) : k.Leads m (c.fill (.more p .none)).tree x
      ↔ k.Leads m (c.fill .none).tree x ∧ ∀ i, Predicate.Meets m i p.tree := by
  induction c with
  | here =>
    obtain ⟨axis, S⟩ := x
    simp only [Part.Leads, fill, Phrase.tree, Survives]
    exact and_congr_right fun _ => Predicate.meets_iff_forall hp m _
  | later q c ih =>
    obtain ⟨axis, S⟩ := x
    simp only [Part.Leads, fill, Phrase.tree, Survives]
    exact ih Part.noConfusion outer last (axis, _)
  | inside c qs => cases outer
  | not c => cases outer
  | selects c => cases outer
  | tested axis t c ih =>
    simp only [Part.Leads, fill, Phrase.tree, Step.Leads]
    exact ih Part.noConfusion outer last (_, _)
  | last c ih =>
    simp only [Part.Leads, fill, Phrase.tree, Chain, exists_eq_right]
    exact ih Part.noConfusion outer last x
  | joinLeft c l ss => simp [after] at last
  | joinRight s l c ih =>
    simp only [Part.Leads, fill, Phrase.tree, Chain, ← exists_and_right, and_assoc]
    exact exists_congr fun y =>
      and_congr_right fun _ => l.chain_and (ih Part.noConfusion outer last) y
  | absolute l c ih =>
    simp only [Part.Leads, fill, Phrase.tree, Path.Leads]
    exact l.chain_and (ih Part.noConfusion outer last) _
  | relative c ih =>
    simp only [Part.Leads, fill, Phrase.tree, Path.Leads]
    exact ih Part.noConfusion outer last _
  | alone c => exact absurd rfl hk
  | unionLeft c q => exact absurd rfl hk
  | unionRight q c => exact absurd rfl hk

/-! ### Brackets -/

section Lists

variable {α : Type} {s t u v : List α} {b c : α}

theorem cons_eq_append_cons (hne : b ≠ c) (h : b :: t = u ++ c :: v) :
    ∃ x, u = b :: x ∧ t = x ++ c :: v := by
  cases u with
  | nil => exact absurd (List.cons.inj h).1 hne
  | cons d x =>
    obtain ⟨rfl, ht⟩ := List.cons.inj h
    exact ⟨x, rfl, ht⟩

theorem append_cons_eq_append_cons (hne : b ≠ c) (h : s ++ b :: t = u ++ c :: v) :
    (∃ x, s = u ++ c :: x ∧ v = x ++ b :: t) ∨ ∃ x, u = s ++ b :: x ∧ t = x ++ c :: v := by
  rcases append_eq_append_cons h with ⟨x, rfl⟩ | ⟨x, rfl, hx⟩
  · refine .inl ⟨x, rfl, ?_⟩
    simpa using h.symm
  · obtain ⟨x, rfl, ht⟩ := cons_eq_append_cons hne hx
    exact .inr ⟨x, rfl, ht⟩

theorem ne_append_cons (h : c ∉ s) : s ≠ u ++ c :: v := by
  rintro rfl
  simp at h

end Lists

theorem symbol_notMem_head {y : Symbol} (hy : y ∉ [.doubleColon, .leftParen, .rightParen, .star])
    (axis : Option Axis) (t : TestPhrase) : .symbol y ∉ axisTokens axis ++ t.tokens := by
  simp only [List.mem_cons, not_or] at hy
  have htest : .symbol y ∉ t.tokens := by
    cases t with
    | star => simp [TestPhrase.tokens, hy]
    | name n => simp [TestPhrase.tokens]
    | bare k starred =>
      cases starred <;> simp [TestPhrase.tokens, TestPhrase.call, Argument.tokens, hy]
    | element a => cases a <;> simp [TestPhrase.tokens, TestPhrase.call, Argument.tokens, hy]
    | instruction a => cases a <;> simp [TestPhrase.tokens, TestPhrase.call, Argument.tokens, hy]
  cases axis <;> simpa [axisTokens, hy] using htest

theorem leftBracket_notMem_comparison (c : Option (Bool × Operand)) :
    .symbol .leftBracket ∉ comparisonTokens c := by
  cases c with
  | none => simp [comparisonTokens]
  | some c =>
    obtain ⟨equal, v⟩ := c
    cases equal <;> cases v <;> simp [comparisonTokens, Operand.token]

theorem Phrase.exists_context {k : Part} (e : Phrase k) {s u r t : List Token}
    {p : Phrase .predicate} (h : e.tokens = s ++ .symbol .leftBracket :: u)
    (h' : u ++ r = p.tokens ++ .symbol .rightBracket :: t) :
    ∃ (c : Context k) (ps : Phrase .predicates),
      e = c.fill (.more p ps) ∧ s = c.before ∧ t = ps.tokens ++ (c.after ++ r) := by
  induction e generalizing s u r with
  | alone e ih =>
    obtain ⟨c, ps, rfl, hs, ht⟩ := ih h h'
    exact ⟨.alone c, ps, rfl, hs, ht⟩
  | union e q ihe ihq =>
    rcases append_cons_eq_append_cons (by decide) h with ⟨x, hx, rfl⟩ | ⟨x, rfl, hx⟩
    · rw [List.append_assoc] at h'
      obtain ⟨c, ps, rfl, hs, rfl⟩ := ihe hx h'
      exact ⟨.unionLeft c q, ps, rfl, hs, by simp [Context.after]⟩
    · obtain ⟨c, ps, rfl, rfl, ht⟩ := ihq hx h'
      exact ⟨.unionRight e c, ps, rfl, rfl, ht⟩
  | root => exact absurd h (ne_append_cons (by simp [tokens]))
  | absolute l ss ih =>
    have hl : Token.symbol l.symbol ≠ .symbol .leftBracket := by cases l <;> decide
    obtain ⟨x, rfl, hx⟩ := cons_eq_append_cons hl h
    obtain ⟨c, ps, rfl, rfl, ht⟩ := ih hx h'
    exact ⟨.absolute l c, ps, rfl, rfl, ht⟩
  | relative ss ih =>
    obtain ⟨c, ps, rfl, hs, ht⟩ := ih h h'
    exact ⟨.relative c, ps, rfl, hs, ht⟩
  | last e ih =>
    obtain ⟨c, ps, rfl, hs, ht⟩ := ih h h'
    exact ⟨.last c, ps, rfl, hs, ht⟩
  | join e l ss ihe ihss =>
    have hl : Token.symbol l.symbol ≠ .symbol .leftBracket := by cases l <;> decide
    rcases append_cons_eq_append_cons hl h with ⟨x, hx, rfl⟩ | ⟨x, rfl, hx⟩
    · rw [List.append_assoc] at h'
      obtain ⟨c, ps, rfl, hs, rfl⟩ := ihe hx h'
      exact ⟨.joinLeft c l ss, ps, rfl, hs, by simp [Context.after]⟩
    · obtain ⟨c, ps, rfl, rfl, ht⟩ := ihss hx h'
      exact ⟨.joinRight e l c, ps, rfl, rfl, ht⟩
  | dot => exact absurd h (ne_append_cons (by simp [tokens]))
  | doubleDot => exact absurd h (ne_append_cons (by simp [tokens]))
  | tested axis test ps ih =>
    rw [tokens, ← List.append_assoc] at h
    rcases append_eq_append_cons h with ⟨x, hx⟩ | ⟨x, rfl, hx⟩
    · exact absurd hx (ne_append_cons (symbol_notMem_head (by decide) axis test))
    · obtain ⟨c, ps, rfl, rfl, ht⟩ := ih hx h'
      exact ⟨.tested axis test c, ps, rfl, List.append_assoc .., ht⟩
  | none => exact absurd h (ne_append_cons List.not_mem_nil)
  | more q ps ihq ihps =>
    cases s with
    | nil =>
      obtain ⟨-, rfl⟩ := List.cons.inj h
      rw [List.append_assoc] at h'
      obtain ⟨hq, -, rfl⟩ := tokens_append_cons_inj q p (by decide) (by decide) h'
      exact ⟨.here, ps, by rw [tokens_injective hq]; rfl, rfl, rfl⟩
    | cons b s =>
      obtain ⟨rfl, hs⟩ := List.cons.inj h
      rcases append_cons_eq_append_cons (by decide) hs with ⟨x, hx, rfl⟩ | ⟨x, rfl, hx⟩
      · rw [List.append_assoc] at h'
        obtain ⟨c, qs, rfl, rfl, rfl⟩ := ihq hx h'
        exact ⟨.inside c ps, qs, rfl, rfl, by simp [Context.after]⟩
      · obtain ⟨c, qs, rfl, rfl, ht⟩ := ihps hx h'
        exact ⟨.later q c, qs, rfl, rfl, ht⟩
  | position n => exact absurd h (ne_append_cons (by simp [tokens]))
  | attributed name c =>
    exact absurd h (ne_append_cons (by simp [tokens, leftBracket_notMem_comparison]))
  | not q ih =>
    obtain ⟨x, rfl, hx⟩ := cons_eq_append_cons Token.noConfusion h
    obtain ⟨y, rfl, hy⟩ := cons_eq_append_cons (by decide) hx
    rcases append_cons_eq_append_cons (by decide) hy with ⟨z, hz, rfl⟩ | ⟨z, -, hz⟩
    · rw [List.append_assoc] at h'
      obtain ⟨c, ps, rfl, rfl, rfl⟩ := ih hz h'
      exact ⟨.not c, ps, rfl, rfl, by simp [Context.after]⟩
    · exact absurd hz (ne_append_cons List.not_mem_nil)
  | selects q ih =>
    obtain ⟨c, ps, rfl, hs, ht⟩ := ih h h'
    exact ⟨.selects c, ps, rfl, hs, ht⟩

theorem append_cons_ne {α : Type} {s t : List α} {b c : α} (hs : ∀ u, s ≠ c :: u) (hne : b ≠ c)
    (u : List α) : s ++ b :: t ≠ c :: u := by
  intro h
  cases s with
  | nil => exact hne (List.cons.inj h).1
  | cons d s => exact hs s (congrArg (· :: s) (List.cons.inj h).1)

theorem Context.after_ne {k : Part} (c : Context k) (us : List Token) :
    c.after ≠ .symbol .leftBracket :: us := by
  induction c generalizing us with
  | here => exact nofun
  | inside c ps ih => exact append_cons_ne ih (by decide) us
  | not c ih => exact append_cons_ne ih (by decide) us
  | joinLeft c l ss ih => exact append_cons_ne ih (by cases l <;> decide) us
  | unionLeft c q ih => exact append_cons_ne ih (by decide) us
  | later p c ih => exact ih us
  | selects c ih => exact ih us
  | tested axis t c ih => exact ih us
  | last c ih => exact ih us
  | joinRight s l c ih => exact ih us
  | absolute l c ih => exact ih us
  | relative c ih => exact ih us
  | alone c ih => exact ih us
  | unionRight p c ih => exact ih us

/-! ### Spelling -/

def Laid (ts : List Token) (s : List Char) : Prop :=
  ∃ ps, Layout ps s ∧ ps.map Spaced.token = ts

theorem Laid.append {ts us : List Token} {s t : List Char} (hs : Laid ts s) (ht : Laid us t) :
    Laid (ts ++ us) (s ++ t) := by
  obtain ⟨ps, hs, rfl⟩ := hs
  obtain ⟨qs, ht, rfl⟩ := ht
  induction hs with
  | @nil b hb =>
    cases ht with
    | nil hs => exact ⟨[], .nil (hb.append hs), rfl⟩
    | @cons b' r s t qs hb' hr ht =>
      refine ⟨⟨b ++ b', t⟩ :: qs, ?_, rfl⟩
      rw [← List.append_assoc]
      exact .cons (hb.append hb') hr ht
  | @cons b r s t ps hb hr hs ih =>
    obtain ⟨rs, h, e⟩ := ih
    refine ⟨⟨b, t⟩ :: rs, ?_, congrArg (t :: ·) e⟩
    rw [List.append_assoc, List.append_assoc]
    exact .cons hb hr h

theorem Context.spells {c : Context .query} {ps : Phrase .predicates} {a w b : List Char}
    (ha : Laid c.before a) (hw : Laid ps.tokens w) (hb : Laid c.after b) :
    (c.fill ps).Spells (.ofList (a ++ (w ++ b))) := by
  have laid : Laid (c.fill ps).tokens (String.ofList (a ++ (w ++ b))).toList := by
    rw [String.toList_ofList, c.tokens_fill]
    exact ha.append (hw.append hb)
  exact laid

end Stylesheet.Query
