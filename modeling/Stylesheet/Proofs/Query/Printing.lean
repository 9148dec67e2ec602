import Mathlib
import Stylesheet.Proofs.Query.Derivation
import Stylesheet.Proofs.Query.Neighbour

/-! Writing queries. What a query is written with is a derivation of the grammar, laid out with or
without blanks between its tokens; reading it gives the query back. A query of names and values that
can be written has a full spelling, in which no axis is left out and no step abbreviated. -/

namespace Stylesheet.Query

/-- Some quotation marks can stand around the value. -/
def Quotable (v : String) : Prop := '"' ∉ v.toList ∨ '\'' ∉ v.toList

instance (v : String) : Decidable (Quotable v) := inferInstanceAs (Decidable (_ ∨ _))

def NodeTest.Printable : NodeTest → Prop
  | element name => ∀ n ∈ name, Quotable n
  | instruction target => ∀ n ∈ target, Quotable n
  | _ => True

mutual

def Predicate.Printable : Predicate → Prop
  | .position n => n < 18446744073709551616
  | .attribute name comparison => IsName name.toList ∧ ∀ c ∈ comparison, Quotable c.value
  | .not p => p.Printable
  | .selects paths => paths ≠ [] ∧ PathsPrintable paths

def PredicatesPrintable : List Predicate → Prop
  | [] => True
  | p :: ps => p.Printable ∧ PredicatesPrintable ps

def Step.Printable : Step → Prop
  | .mk _ test predicates => test.Printable ∧ PredicatesPrintable predicates

def StepsPrintable : List Step → Prop
  | [] => True
  | s :: ss => s.Printable ∧ StepsPrintable ss

/-- A path that starts at the context has a step. -/
def Path.Printable : Path → Prop
  | .mk absolute steps => (absolute = false → steps ≠ []) ∧ StepsPrintable steps

def PathsPrintable : List Path → Prop
  | [] => True
  | p :: ps => p.Printable ∧ PathsPrintable ps

end

def Printable (q : Query) : Prop := q ≠ [] ∧ PathsPrintable q

namespace Phrase

/-- All axes are written and no step is abbreviated. -/
def Full {k : Part} : Phrase k → Prop
  | .alone p => p.Full
  | .union p q => p.Full ∧ q.Full
  | .root => True
  | .absolute l ss => l = .single ∧ ss.Full
  | .relative ss => ss.Full
  | .last s => s.Full
  | .join s l ss => s.Full ∧ l = .single ∧ ss.Full
  | .dot | .doubleDot => False
  | .tested axis _ ps => axis.isSome ∧ ps.Full
  | .none => True
  | .more p ps => p.Full ∧ ps.Full
  | .position _ => True
  | .attributed _ _ => True
  | .not p => p.Full
  | .selects q => q.Full

def Spells (e : Phrase .query) (s : String) : Prop :=
  ∃ ps, Layout ps s.toList ∧ ps.map Spaced.token = e.tokens

theorem parse_of_spells {e : Phrase .query} {s : String} (h : e.Spells s) :
    parse s = .ok e.tree := by
  obtain ⟨ps, hl, hps⟩ := h
  have hc : (ps.map Spaced.token).IsChain Token.Apart := by
    rw [hps]
    exact e.adjoining.imp fun _ _ h => h.apart
  exact parse_eq_ok.2 ⟨e, (hl.list_eq hc).trans (congrArg _ hps), rfl⟩

end Phrase

section Writing

def Token.Writable (t : Token) : Prop := ∃ r, t.Raw r

theorem Token.writable_symbol (y : Symbol) : (Token.symbol y).Writable := ⟨_, .symbol y⟩

theorem Token.writable_name {n : String} (h : IsName n.toList) : (Token.name n).Writable :=
  ⟨_, raw_name h⟩

theorem Token.writable_literal {v : String} (h : Quotable v) : (Token.literal v).Writable := by
  rcases h with h | h
  · exact ⟨_, raw_literal (.inl rfl) h⟩
  · exact ⟨_, raw_literal (.inr rfl) h⟩

theorem Token.writable_number {n : Nat} (h : n < 18446744073709551616) :
    (Token.number n).Writable := ⟨_, raw_number h⟩

theorem exists_layout {ts : List Token} (h : ∀ t ∈ ts, t.Writable) :
    ∃ ps s, Layout ps s ∧ ps.map Spaced.token = ts := by
  induction ts with
  | nil => exact ⟨[], [], .nil (by simp [Text.Blank]), rfl⟩
  | cons t ts ih =>
    obtain ⟨ps, s, hs, rfl⟩ := ih fun t ht => h t (List.mem_cons_of_mem _ ht)
    obtain ⟨r, hr⟩ := h t List.mem_cons_self
    exact ⟨⟨[], t⟩ :: ps, [] ++ (r ++ s), .cons (by simp [Text.Blank]) hr hs, rfl⟩

def Part.Spellable (k : Part) (t : k.Tree) : Prop :=
  ∃ e : Phrase k, e.Full ∧ e.tree = t ∧ ∀ u ∈ e.tokens, u.Writable

theorem Axis.isName_name (a : Axis) : IsName a.name.toList := by
  cases a <;> exact isName_keyword rfl (by decide) (by decide)

theorem BareKind.isName_name (k : BareKind) : IsName k.name.toList := by
  cases k <;> exact isName_keyword rfl (by decide) (by decide)

theorem Argument.exists_writable {n : Option String} (h : ∀ v ∈ n, Quotable v) :
    ∃ a : Argument, a.value = n ∧ ∀ u ∈ a.tokens, u.Writable := by
  cases n with
  | none => exact ⟨.nothing, rfl, nofun⟩
  | some v =>
    exact ⟨.literal v, rfl, List.forall_mem_singleton.2 (Token.writable_literal (h v rfl))⟩

theorem writable_cons {y : Symbol} {ts : List Token} (h : ∀ t ∈ ts, t.Writable) :
    ∀ t ∈ .symbol y :: ts, t.Writable :=
  List.forall_mem_cons.2 ⟨Token.writable_symbol y, h⟩

theorem writable_join {y : Symbol} {ts us : List Token} (ht : ∀ t ∈ ts, t.Writable)
    (hu : ∀ t ∈ us, t.Writable) : ∀ t ∈ ts ++ .symbol y :: us, t.Writable :=
  List.forall_mem_append.2 ⟨ht, writable_cons hu⟩

theorem TestPhrase.writable_call {kind : String} {a : Argument} (hk : IsName kind.toList)
    (ha : ∀ u ∈ a.tokens, u.Writable) : ∀ u ∈ call kind a, u.Writable :=
  List.forall_mem_cons.2 ⟨Token.writable_name hk, writable_cons (writable_join ha nofun)⟩

theorem TestPhrase.exists_writable {t : NodeTest} (h : t.Printable) :
    ∃ e : TestPhrase, e.test = t ∧ ∀ u ∈ e.tokens, u.Writable := by
  have bare (k : BareKind) : ∀ u ∈ (TestPhrase.bare k false).tokens, u.Writable :=
    writable_call k.isName_name nofun
  cases t with
  | any => exact ⟨.bare .node false, rfl, bare _⟩
  | element n =>
    obtain ⟨a, rfl, ha⟩ := Argument.exists_writable h
    exact ⟨.element a, rfl, writable_call (isName_keyword rfl (by decide) (by decide)) ha⟩
  | text => exact ⟨.bare .text false, rfl, bare _⟩
  | comment => exact ⟨.bare .comment false, rfl, bare _⟩
  | instruction n =>
    obtain ⟨a, rfl, ha⟩ := Argument.exists_writable h
    exact ⟨.instruction a, rfl, writable_call (isName_keyword rfl (by decide) (by decide)) ha⟩
  | document => exact ⟨.bare .document false, rfl, bare _⟩

theorem exists_writable_attributed {name : String} {comparison : Option Comparison}
    (hn : IsName name.toList) (hc : ∀ c ∈ comparison, Quotable c.value) :
    ∃ c : Option (Bool × Operand), (Phrase.attributed name c).tree = .attribute name comparison ∧
      ∀ u ∈ (Phrase.attributed name c).tokens, u.Writable := by
  have hname := Token.writable_name hn
  cases comparison with
  | none => exact ⟨none, rfl, writable_cons (List.forall_mem_singleton.2 hname)⟩
  | some c =>
    have hv := List.forall_mem_singleton.2 (Token.writable_literal (hc c rfl))
    exact ⟨some (c.equal, .literal c.value), rfl,
      writable_cons (List.forall_mem_cons.2 ⟨hname, writable_cons hv⟩)⟩

-- Predicates contain paths, so that the induction goes through all parts of a query at once.
mutual

theorem Predicate.spellable (p : Predicate) (h : p.Printable) : Part.predicate.Spellable p :=
  match p with
  | .position n =>
    ⟨.position n, trivial, rfl, List.forall_mem_singleton.2 (Token.writable_number h)⟩
  | .attribute name c => by
    obtain ⟨c, hc, hw⟩ := exists_writable_attributed h.1 h.2
    exact ⟨.attributed name c, trivial, hc, hw⟩
  | .not p => by
    obtain ⟨e, he, rfl, hw⟩ := Predicate.spellable p h
    have hname := Token.writable_name (isName_keyword (n := "not") rfl (by decide) (by decide))
    exact ⟨.not e, he, rfl,
      List.forall_mem_cons.2 ⟨hname, writable_cons (writable_join hw nofun)⟩⟩
  | .selects paths => by
    obtain ⟨e, he, rfl, hw⟩ := spellable_query paths h.1 h.2
    exact ⟨.selects e, he, rfl, hw⟩
termination_by structural p

theorem spellable_predicates (ps : List Predicate) (h : PredicatesPrintable ps) :
    Part.predicates.Spellable ps :=
  match ps with
  | [] => ⟨.none, trivial, rfl, nofun⟩
  | p :: ps => by
    obtain ⟨e, he, rfl, hw⟩ := Predicate.spellable p h.1
    obtain ⟨es, hes, rfl, hws⟩ := spellable_predicates ps h.2
    exact ⟨.more e es, ⟨he, hes⟩, rfl, writable_cons (writable_join hw hws)⟩
termination_by structural ps

theorem Step.spellable (s : Step) (h : s.Printable) : Part.step.Spellable s :=
  match s with
  | .mk axis test predicates => by
    obtain ⟨e, rfl, hw⟩ := TestPhrase.exists_writable h.1
    obtain ⟨es, hes, rfl, hws⟩ := spellable_predicates predicates h.2
    have haxis : ∀ u ∈ axisTokens (some axis), u.Writable :=
      List.forall_mem_cons.2 ⟨Token.writable_name axis.isName_name, writable_cons nofun⟩
    exact ⟨.tested (some axis) e es, ⟨rfl, hes⟩, rfl,
      List.forall_mem_append.2 ⟨haxis, List.forall_mem_append.2 ⟨hw, hws⟩⟩⟩
termination_by structural s

theorem spellable_steps (ss : List Step) (hne : ss ≠ []) (h : StepsPrintable ss) :
    Part.steps.Spellable ss :=
  match ss with
  | [] => absurd rfl hne
  | [s] => by
    obtain ⟨e, he, rfl, hw⟩ := Step.spellable s h.1
    exact ⟨.last e, he, rfl, hw⟩
  | s :: t :: ss => by
    obtain ⟨e, he, rfl, hw⟩ := Step.spellable s h.1
    obtain ⟨es, hes, hts, hws⟩ := spellable_steps (t :: ss) nofun h.2
    exact ⟨.join e .single es, ⟨he, rfl, hes⟩, congrArg (e.tree :: ·) hts, writable_join hw hws⟩
termination_by structural ss

theorem Path.spellable (p : Path) (h : p.Printable) : Part.path.Spellable p :=
  match p with
  | .mk true [] => ⟨.root, trivial, rfl, writable_cons nofun⟩
  | .mk true (s :: ss) => by
    obtain ⟨e, he, hts, hw⟩ := spellable_steps (s :: ss) nofun h.2
    exact ⟨.absolute .single e, ⟨rfl, he⟩, congrArg (Path.mk true) hts, writable_cons hw⟩
  | .mk false ss => by
    obtain ⟨e, he, rfl, hw⟩ := spellable_steps ss (h.1 rfl) h.2
    exact ⟨.relative e, he, rfl, hw⟩
termination_by structural p

theorem spellable_query (q : List Path) (hne : q ≠ []) (h : PathsPrintable q) :
    Part.query.Spellable q :=
  match q with
  | [] => absurd rfl hne
  | [p] => by
    obtain ⟨e, he, rfl, hw⟩ := Path.spellable p h.1
    exact ⟨.alone e, he, rfl, hw⟩
  | p :: p' :: ps => by
    obtain ⟨e, he, rfl, hw⟩ := Path.spellable p h.1
    obtain ⟨es, hes, hps, hws⟩ := spellable_query (p' :: ps) nofun h.2
    exact ⟨.union e es, ⟨he, hes⟩, congrArg (e.tree :: ·) hps, writable_join hw hws⟩
termination_by structural q

end

end Writing

/-- A query that can be written has a full spelling, and each of its spellings is read as it. -/
theorem parse_spelling {q : Query} (h : Printable q) :
    (∃ (e : Phrase .query) (s : String), e.Full ∧ e.tree = q ∧ e.Spells s) ∧
      ∀ (e : Phrase .query) (s : String), e.tree = q → e.Spells s → parse s = .ok q := by
  constructor
  · obtain ⟨e, he, rfl, hw⟩ := spellable_query q h.1 h.2
    obtain ⟨ps, s, hs, hps⟩ := exists_layout hw
    refine ⟨e, String.ofList s, he, rfl, ps, ?_, hps⟩
    rwa [String.toList_ofList]
  · rintro e s rfl hs
    exact e.parse_of_spells hs

/-- An element with the name of a keyword, one with the name of an axis, a prefixed attribute, a
quotation mark in a value and the greatest position. -/
theorem parse_spelling_keywords :
    let q : Query := [
      .mk true [
        .mk .child (.element (some "not")) [.not (.attribute "x:a" (some ⟨false, "it's"⟩))],
        .mk .parent (.element (some "self")) [.position 18446744073709551615]],
      .mk true []]
    let e : Phrase .query := .union
      (.absolute .single (.join
        (.tested (some .child) (.name "not")
          (.more (.not (.attributed "x:a" (some (false, .literal "it's")))) .none))
        .single
        (.last (.tested (some .parent) (.element (.literal "self"))
          (.more (.position 18446744073709551615) .none)))))
      (.alone .root)
    let s := "/child::not [not(@x:a!=\"it's\")]/parent::element('self')[18446744073709551615]|/"
    Printable q ∧ e.Full ∧ e.tree = q ∧ e.Spells s ∧ parse s = .ok q := by
  intro q e s
  have hname : IsName "x:a".toList :=
    .prefixed (s := ['x']) (t := ['a']) (.intro (by decide) nofun) (.intro (by decide) nofun)
  have hvalue : ∀ c ∈ some (⟨false, "it's"⟩ : Comparison), Quotable c.value := by
    rintro c ⟨⟩
    decide
  have hnot : (NodeTest.element (some "not")).Printable := by
    rintro n ⟨⟩
    decide
  have hself : (NodeTest.element (some "self")).Printable := by
    rintro n ⟨⟩
    decide
  have hlast : 18446744073709551615 < 18446744073709551616 := by decide
  have hq : Printable q := ⟨nofun, ⟨nofun, ⟨hnot, ⟨hname, hvalue⟩, trivial⟩,
    ⟨hself, hlast, trivial⟩, trivial⟩, ⟨nofun, trivial⟩, trivial⟩
  have ht : Token.list s.toList = .ok e.tokens := by
    dsimp only [s, e]
    cbv
  have hs : e.Spells s := Token.list_layout ht
  have he : e.Full := ⟨⟨rfl, ⟨rfl, trivial, trivial⟩, rfl, rfl, trivial, trivial⟩, trivial⟩
  exact ⟨hq, he, rfl, hs, (parse_spelling hq).2 e s rfl hs⟩

end Stylesheet.Query
