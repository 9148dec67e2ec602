import Mathlib
import Stylesheet.Proofs.Pattern.Phrase
import Stylesheet.Proofs.Query.Printing
import Stylesheet.Proofs.Query.Select
import Stylesheet.Proofs.Query.Unambiguous

namespace Stylesheet

namespace Query

open Text Pattern

variable {p q : Query}

/-! ### Reading -/

def Phrase.or {k : Part} (e : Phrase k) (f : Phrase .query) : Phrase .query :=
  match e with
  | .alone p => .union p f
  | .union p q => .union p (q.or f)
  | _ => f

theorem Phrase.tokens_or (e f : Phrase .query) :
    (e.or f).tokens = e.tokens ++ .symbol .pipe :: f.tokens :=
  match e with
  | .alone p => rfl
  | .union p q => by
    simp only [or, tokens, tokens_or q f, List.append_assoc, List.cons_append]

theorem Phrase.tree_or (e f : Phrase .query) : (e.or f).tree = List.append e.tree f.tree :=
  match e with
  | .alone p => rfl
  | .union p q => congrArg (p.tree :: ·) (tree_or q f)

theorem Layout.join {ps qs : List Spaced} {s t : List Char} (h : Layout ps s) (y : Symbol)
    (ht : Layout qs t) : ∃ b, Layout (ps ++ ⟨b, .symbol y⟩ :: qs) (s ++ (y.text ++ t)) := by
  induction h with
  | @nil b hb => exact ⟨b, .cons hb (.symbol y) ht⟩
  | cons hb hr h ih =>
    obtain ⟨b, ih⟩ := ih
    rw [List.append_assoc, List.append_assoc]
    exact ⟨b, .cons hb hr ih⟩

theorem Phrase.Spells.join {e f g : Phrase .query} {s t : String} (hs : e.Spells s)
    (ht : f.Spells t) (y : Symbol) (hg : g.tokens = e.tokens ++ .symbol y :: f.tokens) :
    g.Spells (s ++ String.ofList y.text ++ t) := by
  obtain ⟨ps, hs, hps⟩ := hs
  obtain ⟨qs, ht, hqs⟩ := ht
  obtain ⟨b, h⟩ := hs.join y ht
  refine ⟨ps ++ ⟨b, .symbol y⟩ :: qs, ?_, ?_⟩
  · simpa using h
  · rw [hg, List.map_append, List.map_cons, hps, hqs]

theorem spells_of_parse {s : String} (h : parse s = .ok p) :
    ∃ e : Phrase .query, e.Spells s ∧ p = e.tree := by
  obtain ⟨e, he, rfl⟩ := parse_eq_ok.1 h
  exact ⟨e, Token.list_layout he, rfl⟩

end Query

namespace Pattern

def either (P Q : String) : String := P ++ "|" ++ Q

theorem either_assoc (P Q R : String) : either (either P Q) R = either P (either Q R) := by
  simp only [either, String.append_assoc]

end Pattern

open Query Document

variable {P Q R : String} {p q : Query}

theorem Query.parse_either (hP : parse P = .ok p) (hQ : parse Q = .ok q) :
    parse (Pattern.either P Q) = .ok (p ++ q) := by
  obtain ⟨e, he, rfl⟩ := spells_of_parse hP
  obtain ⟨f, hf, rfl⟩ := spells_of_parse hQ
  have spells : (e.or f).Spells (Pattern.either P Q) := he.join hf .pipe (e.tokens_or f)
  exact (Phrase.parse_of_spells spells).trans (congrArg Except.ok (e.tree_or f))

/-! ### Selecting -/

theorem Query.union_append {d : Document} (n : d.Node) (p q : List Path) :
    union n (p ++ q) = union n p ++ union n q := by
  induction p with
  | nil => rfl
  | cons path p ih => rw [List.cons_append, union, ih, union, List.append_assoc]

theorem Query.mem_select_append {d : Document} {n m : d.Node} :
    m ∈ Query.select (p ++ q) n ↔ m ∈ p.select n ∨ m ∈ q.select n := by
  simp only [Query.select, mem_inDocumentOrder, union_append, List.mem_append]

theorem Query.isEmpty_select_append {d : Document} (p q : Query) (n : d.Node) :
    (Query.select (p ++ q) n).isEmpty = ((p.select n).isEmpty && (q.select n).isEmpty) := by
  rw [Bool.eq_iff_iff]
  simp only [Bool.and_eq_true, List.isEmpty_iff, List.eq_nil_iff_forall_not_mem,
    mem_select_append, not_or, forall_and]

/-! ### Scoring -/

theorem Specificity.le_antisymm {a b : Specificity} (h : a ≤ b) (k : b ≤ a) : a = b := by
  simp only [Specificity.ext_iff, Count.ext_iff]
  rw [le_iff] at h k
  omega

theorem Specificity.le_min {a b c : Specificity} (h : a ≤ b) (k : a ≤ c) : a ≤ min b c := by
  rcases min_eq b c with e | e <;> rw [e] <;> assumption

theorem Specificity.min_comm (a b : Specificity) : min a b = min b a :=
  le_antisymm (le_min (min_le a b).2 (min_le a b).1) (le_min (min_le b a).2 (min_le b a).1)

theorem Specificity.min_self (a : Specificity) : min a a = a := by
  rcases min_eq a a with e | e <;> exact e

namespace Pattern

theorem weakest_append {ss ts : List Specificity} (hs : ss ≠ []) (ht : ts ≠ []) :
    weakest (ss ++ ts) = min (weakest ss) (weakest ts) := by
  refine Specificity.le_antisymm (Specificity.le_min ?_ ?_) ?_
  · exact weakest_le (List.mem_append_left ts (weakest_mem hs))
  · exact weakest_le (List.mem_append_right ss (weakest_mem ht))
  · obtain ⟨hl, hr⟩ := Specificity.min_le (weakest ss) (weakest ts)
    rcases List.mem_append.1 (weakest_mem (List.append_ne_nil_of_left_ne_nil hs ts)) with h | h
    · exact Specificity.le_trans hl (weakest_le h)
    · exact Specificity.le_trans hr (weakest_le h)

def branches (s : String) : List (List Char) := splitOutside '|' (stripLiterals s.toList)

theorem branches_ne_nil (s : String) : branches s ≠ [] :=
  mt List.map_eq_nil_iff.1 (List.splitOnP_ne_nil _ _)

theorem spelt_of_parse (h : parse P = .ok p) : ∃ e : Phrase .query, p = e.tree ∧
    Spelt e.tokens (stripLiterals P.toList) ∧
      ∀ u, stripLiterals (P.toList ++ u) = stripLiterals P.toList ++ stripLiterals u := by
  obtain ⟨e, he, hp⟩ := parse_eq_ok.1 h
  obtain ⟨s, hs, strip⟩ := Token.list_spelt he
  have hP : stripLiterals P.toList = s := by simpa using strip []
  subst hP
  exact ⟨e, hp, hs, strip⟩

theorem stripLiterals_join (h : parse P = .ok p) (y : Symbol) (Q : String) :
    stripLiterals (P ++ String.ofList y.text ++ Q).toList
      = stripLiterals P.toList ++ (y.text ++ stripLiterals Q.toList) := by
  obtain ⟨-, -, -, strip⟩ := spelt_of_parse h
  rw [← stripLiterals_append (isQuote_text y), ← strip]
  simp

theorem depth_of_parse (h : parse P = .ok p) :
    depth isOpener isCloser 0 (stripLiterals P.toList) = 0 := by
  obtain ⟨e, -, spelt, -⟩ := spelt_of_parse h
  exact (e.balanced .both spelt).depth_eq 0

theorem branches_either (h : parse P = .ok p) (Q : String) :
    branches (either P Q) = branches P ++ branches Q := by
  rw [branches, branches, branches, ← splitOutside_append_cons (depth_of_parse h) rfl rfl]
  exact congrArg (splitOutside '|') (stripLiterals_join h .pipe Q)

end Pattern

open Pattern

theorem Specificity.of_branches (s : String) :
    of s = weakest ((branches s).map fun b => (Score.ofBranch b).specificity) :=
  of_eq s

theorem Features.of_branches (s : String) :
    of s = (Score.sum ((branches s).map .ofBranch)).features ∪
      (if 1 < (branches s).length then .single .union else .empty) := rfl

theorem Specificity.of_either (h : parse P = .ok p) (Q : String) :
    of (either P Q) = min (of P) (of Q) := by
  rw [of_branches, of_branches, of_branches, branches_either h, List.map_append, weakest_append]
  · exact mt List.map_eq_nil_iff.1 (branches_ne_nil P)
  · exact mt List.map_eq_nil_iff.1 (branches_ne_nil Q)

theorem Features.absorb (p : Prop) [Decidable p] (u : Features) :
    (if p then u else empty) ∪ u = u := by
  split
  · exact union_self u
  · exact empty_union u

theorem Features.union_left_comm (a b c : Features) : a ∪ (b ∪ c) = b ∪ (a ∪ c) := by
  rw [← union_assoc, union_comm a, union_assoc]

theorem Features.of_either (h : parse P = .ok p) (Q : String) :
    of (either P Q) = of P ∪ of Q ∪ .single .union := by
  have hP := List.length_pos_of_ne_nil (branches_ne_nil P)
  have hQ := List.length_pos_of_ne_nil (branches_ne_nil Q)
  have two : 1 < (branches P ++ branches Q).length := by rw [List.length_append]; omega
  rw [of_branches, of_branches, of_branches, branches_either h, if_pos two, List.map_append,
    Score.sum_append]
  show (Score.sum _).features ∪ (Score.sum _).features ∪ _ = _
  rw [union_assoc, union_assoc, union_assoc, union_assoc, absorb, union_left_comm (ite ..), absorb]

/-! ### The algebra of unions -/

namespace Pattern

def Accepted (P : String) : Prop := ∃ q, parse P = .ok q

/-- `R` selects what `P` and `Q` select, merged in document order and each node once; it is as weak
as the weaker of them, and has the features of both. -/
structure IsUnion (R P Q : String) : Prop where
  accepted : Accepted R
  select {d : Document} (n : d.Node) : ∃ ms ns ks,
    (Evaluator.ofQueries d).select P n = .ok ms ∧ (Evaluator.ofQueries d).select Q n = .ok ns ∧
      (Evaluator.ofQueries d).select R n = .ok ks ∧ ks.Pairwise Precedes ∧
      ∀ k, k ∈ ks ↔ k ∈ ms ∨ k ∈ ns
  accepts {d : Document} (n : d.Node) : ∃ a b,
    (Evaluator.ofQueries d).accepts P n = .ok a ∧ (Evaluator.ofQueries d).accepts Q n = .ok b ∧
      (Evaluator.ofQueries d).accepts R n = .ok (a || b)
  specificity : Specificity.of R = min (.of P) (.of Q)
  features : Features.of R = .of P ∪ .of Q ∪ .single .union

/-- No node of any document and no rank tells the patterns apart. -/
structure Alike (P Q : String) : Prop where
  select {d : Document} (n : d.Node) :
    (Evaluator.ofQueries d).select P n = (Evaluator.ofQueries d).select Q n
  accepts {d : Document} (n : d.Node) :
    (Evaluator.ofQueries d).accepts P n = (Evaluator.ofQueries d).accepts Q n
  specificity : Specificity.of P = Specificity.of Q

theorem Alike.refl (P : String) : Alike P P := ⟨fun _ => rfl, fun _ => rfl, rfl⟩

theorem isUnion_either (hP : Accepted P) (hQ : Accepted Q) : IsUnion (either P Q) P Q := by
  obtain ⟨p, hP⟩ := hP
  obtain ⟨q, hQ⟩ := hQ
  have hR := parse_either hP hQ
  exact {
    accepted := ⟨_, hR⟩
    select := fun n => by
      refine ⟨_, _, _, (answers_of_parse_ok hP n).1, (answers_of_parse_ok hQ n).1,
        (answers_of_parse_ok hR n).1, pairwise_inDocumentOrder _, fun k => mem_select_append⟩
    accepts := fun n => by
      refine ⟨_, _, (answers_of_parse_ok hP n).2, (answers_of_parse_ok hQ n).2, ?_⟩
      rw [(answers_of_parse_ok hR n).2, isEmpty_select_append, Bool.not_and]
    specificity := Specificity.of_either hP Q
    features := Features.of_either hP Q }

theorem IsUnion.symm (h : IsUnion R P Q) : IsUnion R Q P where
  accepted := h.accepted
  select n := by
    obtain ⟨ms, ns, ks, hm, hn, hk, sorted, mem⟩ := h.select n
    exact ⟨ns, ms, ks, hn, hm, hk, sorted, fun k => (mem k).trans or_comm⟩
  accepts n := by
    obtain ⟨a, b, ha, hb, hr⟩ := h.accepts n
    exact ⟨b, a, hb, ha, Bool.or_comm a b ▸ hr⟩
  specificity := h.specificity.trans (Specificity.min_comm ..)
  features := by rw [h.features, Features.union_comm (.of P)]

theorem IsUnion.alike {R' : String} (h : IsUnion R P Q) (h' : IsUnion R' P Q) : Alike R R' where
  select n := by
    obtain ⟨ms, ns, ks, hm, hn, hk, sorted, mem⟩ := h.select n
    obtain ⟨ms', ns', ks', hm', hn', hk', sorted', mem'⟩ := h'.select n
    cases hm.symm.trans hm'
    cases hn.symm.trans hn'
    rw [hk, hk', eq_of_pairwise (fun _ _ => Precedes.asymm) sorted sorted' fun k =>
      (mem k).trans (mem' k).symm]
  accepts n := by
    obtain ⟨a, b, ha, hb, hr⟩ := h.accepts n
    obtain ⟨a', b', ha', hb', hr'⟩ := h'.accepts n
    cases ha.symm.trans ha'
    cases hb.symm.trans hb'
    exact hr.trans hr'.symm
  specificity := h.specificity.trans h'.specificity.symm

theorem IsUnion.idem (hP : Accepted P) (h : IsUnion R P P) : Alike R P where
  select {d} n := by
    obtain ⟨p, hP⟩ := hP
    obtain ⟨ms, ns, ks, hm, hn, hk, sorted, mem⟩ := h.select n
    have hp := (answers_of_parse_ok hP n).1
    cases hm.symm.trans hp
    cases hn.symm.trans hp
    rw [hk, hp, eq_of_pairwise (fun _ _ => Precedes.asymm) sorted (pairwise_inDocumentOrder _)
      fun k => (mem k).trans or_self_iff]
    rfl
  accepts n := by
    obtain ⟨a, b, ha, hb, hr⟩ := h.accepts n
    cases ha.symm.trans hb
    rw [hr, ha, Bool.or_self]
  specificity := h.specificity.trans (Specificity.min_self _)

/-- The bar between two patterns stands for their union, so that neither the order nor the grouping
of alternatives matters, nor that one is written twice. -/
theorem either_spec (hP : Accepted P) (hQ : Accepted Q) :
    IsUnion (either P Q) P Q ∧ Alike (either P Q) (either Q P) ∧ Alike (either P P) P ∧
      ∀ R, Accepted R → IsUnion (either (either P Q) R) (either P Q) R ∧
        IsUnion (either P (either Q R)) P (either Q R) ∧
        Alike (either (either P Q) R) (either P (either Q R)) := by
  have hPQ := isUnion_either hP hQ
  refine ⟨hPQ, hPQ.alike (isUnion_either hQ hP).symm, (isUnion_either hP hP).idem hP,
    fun R hR => ⟨isUnion_either hPQ.accepted hR, ?_, ?_⟩⟩
  · exact isUnion_either hP (isUnion_either hQ hR).accepted
  · rw [either_assoc]
    exact .refl _

/-- A union, with a bar in a literal, and the lone slash. -/
theorem either_spec_slash :
    let P := "a | b[@k = '|']"
    let Q := " / "
    Accepted P ∧ Accepted Q ∧ IsUnion (either P Q) P Q ∧ Alike (either P Q) (either Q P) ∧
      Alike (either P P) P := by
  intro P Q
  have hP : Accepted P := ⟨_, by cbv⟩
  have hQ : Accepted Q := ⟨_, by cbv⟩
  obtain ⟨hPQ, comm, idem, -⟩ := either_spec hP hQ
  exact ⟨hP, hQ, hPQ, comm, idem⟩

end Pattern

end Stylesheet
