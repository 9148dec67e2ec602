import Mathlib
import Stylesheet.Proofs.Pattern.Union

/-! Paths put together by a slash. The second path goes on from each node that the first one
selects, and as the slash cuts the text for the scorer too, the ranks add up. -/

namespace Stylesheet

namespace Query

open Document

/-! ### Reading -/

def Phrase.extend {k : Part} (e : Phrase k) (l : Slash) (f : Phrase .steps) : Phrase .steps :=
  match e with
  | .last s => .join s l f
  | .join s m ss => .join s m (ss.extend l f)
  | _ => f

theorem Phrase.tokens_extend (e : Phrase .steps) (l : Slash) (f : Phrase .steps) :
    (e.extend l f).tokens = e.tokens ++ .symbol l.symbol :: f.tokens :=
  match e with
  | .last s => rfl
  | .join s m ss => by
    simp only [extend, tokens, tokens_extend ss l f, List.append_assoc, List.cons_append]

theorem Slash.before_append (l : Slash) (ss ts : List Step) :
    l.before (ss ++ ts) = l.before ss ++ ts := by
  cases l <;> rfl

theorem Phrase.tree_extend (e : Phrase .steps) (l : Slash) (f : Phrase .steps) :
    (e.extend l f).tree = List.append e.tree (l.before f.tree) :=
  match e with
  | .last s => rfl
  | .join s m ss => by
    simp only [extend, tree, tree_extend ss l f]
    exact congrArg (s.tree :: ·) (m.before_append ss.tree (l.before f.tree))

theorem Phrase.exists_relative {p : Phrase .path} {ss : List Step} (h : p.tree = .mk false ss) :
    ∃ f : Phrase .steps, p = .relative f ∧ f.tree = ss := by
  cases p with
  | root => cases h
  | absolute l f => cases h
  | relative f => exact ⟨f, rfl, (Path.mk.inj h).2⟩

theorem Phrase.exists_extended {p : Phrase .path} {absolute : Bool} {ss : List Step}
    (h : p.tree = .mk absolute ss) (hne : ss ≠ []) (l : Slash) (f : Phrase .steps) :
    ∃ p' : Phrase .path, p'.tokens = p.tokens ++ .symbol l.symbol :: f.tokens ∧
      p'.tree = .mk absolute (ss ++ l.before f.tree) := by
  cases p with
  | root =>
    cases h
    exact absurd rfl hne
  | absolute m e =>
    cases h
    refine ⟨.absolute m (e.extend l f), congrArg (_ :: ·) (e.tokens_extend l f), ?_⟩
    have steps := congrArg m.before (e.tree_extend l f)
    exact congrArg (Path.mk true) (steps.trans (m.before_append e.tree (l.before f.tree)))
  | relative e =>
    cases h
    exact ⟨.relative (e.extend l f), e.tokens_extend l f,
      congrArg (Path.mk false) (e.tree_extend l f)⟩

variable {P Q : String} {absolute : Bool} {ss ts : List Step}

def joined (l : Slash) (P Q : String) : String := P ++ String.ofList l.symbol.text ++ Q

theorem parse_joined (hP : parse P = .ok [.mk absolute ss]) (hne : ss ≠ [])
    (hQ : parse Q = .ok [.mk false ts]) (l : Slash) :
    parse (joined l P Q) = .ok [.mk absolute (ss ++ l.before ts)] := by
  obtain ⟨e, he, hp⟩ := spells_of_parse hP
  obtain ⟨f, hf, hq⟩ := spells_of_parse hQ
  obtain ⟨p, rfl⟩ := Phrase.exists_alone hp.symm
  obtain ⟨q, rfl⟩ := Phrase.exists_alone hq.symm
  obtain ⟨g, rfl, rfl⟩ := Phrase.exists_relative (List.cons.inj hq).1.symm
  obtain ⟨p', tokens, tree⟩ := Phrase.exists_extended (List.cons.inj hp).1.symm hne l g
  have spells : (Phrase.alone p').Spells (joined l P Q) := he.join hf l.symbol tokens
  exact (Phrase.parse_of_spells spells).trans (congrArg (Except.ok [·]) tree)

/-! ### Selecting -/

section Chains

variable {d : Document}

theorem chain_append {n m : d.Node} : Chain n m (ss ++ ts) ↔ ∃ c, Chain n c ss ∧ Chain c m ts := by
  induction ss generalizing n with
  | nil => simp [Chain]
  | cons s ss ih =>
    simp only [List.cons_append, Chain, ih]
    constructor
    · rintro ⟨b, hb, c, hc, hm⟩
      exact ⟨c, ⟨b, hb, hc⟩, hm⟩
    · rintro ⟨c, ⟨b, hb, hc⟩, hm⟩
      exact ⟨b, hb, c, hc, hm⟩

theorem mem_select_path {n m : d.Node} : m ∈ Query.select [.mk absolute ss] n
    ↔ Chain (if absolute then d.root else n) m ss := by
  simp only [Query.select, mem_inDocumentOrder, mem_union, Leads, or_false, Path.Leads]

end Chains

end Query

open Query Document

variable {P Q : String} {path : Path}

/-! ### Scoring -/

theorem Specificity.of_path (h : parse P = .ok [path]) :
    of P = (Pattern.Score.ofBranch (Pattern.stripLiterals P.toList)).specificity := by
  obtain ⟨e, hp, spelt, -⟩ := Pattern.spelt_of_parse h
  obtain ⟨p, rfl⟩ := Phrase.exists_alone hp.symm
  rw [of_eq, Pattern.branchScores_of_balanced (p.balanced .both spelt)]
  rfl

theorem Specificity.of_joined {absolute : Bool} {ss ts : List Step}
    (hP : parse P = .ok [.mk absolute ss]) (hne : ss ≠ []) (hQ : parse Q = .ok [.mk false ts])
    (l : Slash) : of (joined l P Q) = of P + of Q := by
  have strip := Pattern.stripLiterals_join hP l.symbol Q
  rw [of_path (parse_joined hP hne hQ l), of_path hP, of_path hQ, joined, strip,
    ofBranch_join (Pattern.depth_of_parse hP), Pattern.Score.specificity_add]

/-! ### The algebra of paths -/

namespace Pattern

def IsStepped (P : String) : Prop :=
  ∃ absolute ss, parse P = .ok [.mk absolute ss] ∧ ss ≠ []

def IsRelative (Q : String) : Prop := ∃ ss, parse Q = .ok [.mk false ss]

/-- `R` selects what `Q` selects from the nodes that `P` selects, merged in document order and each
node once, and its rank is the sum of theirs. -/
structure IsComposite (R P Q : String) : Prop where
  accepted : Accepted R
  select {d : Document} (n : d.Node) : ∃ ms ks, ∃ ns : d.Node → List d.Node,
    (Evaluator.ofQueries d).select P n = .ok ms ∧
      (∀ m, (Evaluator.ofQueries d).select Q m = .ok (ns m)) ∧
      (Evaluator.ofQueries d).select R n = .ok ks ∧ ks.Pairwise Precedes ∧
      ∀ k, k ∈ ks ↔ ∃ m ∈ ms, k ∈ ns m
  specificity : Specificity.of R = .of P + .of Q

theorem isComposite_joined (hP : IsStepped P) (hQ : IsRelative Q) :
    IsComposite (joined .single P Q) P Q := by
  obtain ⟨absolute, ss, hP, hne⟩ := hP
  obtain ⟨ts, hQ⟩ := hQ
  have hR := parse_joined hP hne hQ .single
  exact {
    accepted := ⟨_, hR⟩
    select := fun {d} n => by
      refine ⟨_, _, Query.select [.mk false ts], (answers_of_parse_ok hP n).1,
        fun m => (answers_of_parse_ok hQ m).1, (answers_of_parse_ok hR n).1,
        pairwise_inDocumentOrder _, fun k => ?_⟩
      simp only [mem_select_path, Slash.before, chain_append]
      rfl
    specificity := Specificity.of_joined hP hne hQ .single }

theorem parse_descendants :
    parse "descendant-or-self::node()" = .ok [.mk false [.descendants]] := by
  cbv

/-- A slash between two paths composes them, and a double slash does so with a step through the
descendants between them, which does not count for the rank. -/
theorem composed_by_slash (hP : IsStepped P) (hQ : IsRelative Q) :
    IsComposite (P ++ "/" ++ Q) P Q ∧ Accepted (P ++ "//" ++ Q) ∧
      (∀ (d : Document) (n : d.Node), (Evaluator.ofQueries d).select (P ++ "//" ++ Q) n
        = (Evaluator.ofQueries d).select (P ++ "/descendant-or-self::node()/" ++ Q) n) ∧
      Specificity.of (P ++ "//" ++ Q) = .of P + .of Q := by
  have single := isComposite_joined hP hQ
  obtain ⟨absolute, ss, hP, hne⟩ := hP
  obtain ⟨ts, hQ⟩ := hQ
  have double := parse_joined hP hne hQ .double
  have below := parse_joined parse_descendants (List.cons_ne_nil _ _) hQ .single
  have long := parse_joined hP hne below .single
  have slashes : "/descendant-or-self::node()/" = joined .single "" "descendant-or-self::node()"
      ++ String.ofList Slash.single.symbol.text := rfl
  have written : joined .single P (joined .single "descendant-or-self::node()" Q)
      = P ++ "/descendant-or-self::node()/" ++ Q := by
    rw [slashes]
    simp only [joined, String.append_assoc, String.empty_append]
  refine ⟨single, ⟨_, double⟩, fun d n => ?_, Specificity.of_joined hP hne hQ .double⟩
  rw [← written]
  exact (answers_of_parse_ok double n).1.trans (answers_of_parse_ok long n).1.symm

/-- A path after a double slash with a slash in a literal, and a position after blanks. -/
theorem composed_by_slash_list :
    let P := "//list[@href = 'a/b']"
    let Q := " item [2]/.."
    IsStepped P ∧ IsRelative Q ∧ IsComposite (P ++ "/" ++ Q) P Q ∧ Accepted (P ++ "//" ++ Q) ∧
      (∀ (d : Document) (n : d.Node), (Evaluator.ofQueries d).select (P ++ "//" ++ Q) n
        = (Evaluator.ofQueries d).select (P ++ "/descendant-or-self::node()/" ++ Q) n) ∧
      Specificity.of (P ++ "//" ++ Q) = .of P + .of Q := by
  intro P Q
  have hP : IsStepped P := ⟨true, [.descendants, .mk .child (.element (some "list"))
    [.attribute "href" (some ⟨true, "a/b"⟩)]], by cbv, List.cons_ne_nil _ _⟩
  have hQ : IsRelative Q := ⟨_, by cbv⟩
  obtain ⟨single, double, written, rank⟩ := composed_by_slash hP hQ
  exact ⟨hP, hQ, single, double, written, rank⟩

end Pattern

end Stylesheet
