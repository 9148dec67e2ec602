import Mathlib
import Stylesheet.Proofs.Pattern.Predicate
import Stylesheet.Proofs.Pattern.Reading
import Stylesheet.Proofs.Query.Context
import Stylesheet.Proofs.Query.Seam

namespace Stylesheet

namespace Query

open Text Pattern Document

/-! ### Scores -/

theorem Score.sum_perm {ss ts : List Score} (h : ss.Perm ts) : Score.sum ss = Score.sum ts := by
  induction h with
  | nil => rfl
  | cons s h ih => rw [Score.sum_cons, Score.sum_cons, ih]
  | swap s t ss =>
    rw [Score.sum_cons, Score.sum_cons, Score.sum_cons, Score.sum_cons, ← Score.add_assoc,
      Score.add_comm t, Score.add_assoc]
  | trans _ _ ihs iht => exact ihs.trans iht

/-- The predicates count the same together, and the tokens in them are the same. -/
structure Phrase.Balances (ps qs : Phrase .predicates) : Prop where
  sum : Score.sum (ps.predicates.map predicateScore) = Score.sum (qs.predicates.map predicateScore)
  tokens (t : Token) : t ∈ ps.tokens ↔ t ∈ qs.tokens

section Even

variable {ps qs : Phrase .predicates} (h : ps.Balances qs)

include h

theorem Context.mem_tokens_fill {k : Part} (c : Context k) (t : Token) :
    t ∈ (c.fill ps).tokens ↔ t ∈ (c.fill qs).tokens := by
  simp only [c.tokens_fill, List.mem_append, h.tokens]

theorem Context.predicateScore_fill (c : Context .predicate) :
    (c.fill ps).predicateScore = (c.fill qs).predicateScore := by
  have sign : (c.fill ps).testsAttribute = (c.fill qs).testsAttribute :=
    decide_eq_decide.2 (c.mem_tokens_fill h _)
  have position : (c.fill ps).tellsPosition = (c.fill qs).tellsPosition := by
    cases c <;> rfl
  rw [Phrase.predicateScore, Phrase.predicateScore, sign, position]

theorem Context.sum_predicates_fill (c : Context .predicates) :
    Score.sum ((c.fill ps).predicates.map Phrase.predicateScore)
      = Score.sum ((c.fill qs).predicates.map Phrase.predicateScore) :=
  match c with
  | .here => h.sum
  | .later p c => by
    simp only [fill, Phrase.predicates, List.map_cons, Score.sum_cons, sum_predicates_fill c]
  | .inside c rs => by
    simp only [fill, Phrase.predicates, List.map_cons, Score.sum_cons, c.predicateScore_fill h]

end Even

def Part.Even (s t : List Char) : Part → Prop
  | .step | .steps | .path => Score.ofBranch s = Score.ofBranch t
  | .query => (splitOutside '|' s).map Score.ofBranch = (splitOutside '|' t).map Score.ofBranch
  | .predicates | .predicate => True

theorem Context.spelt_fill {k : Part} {c : Context k} {ps : Phrase .predicates}
    {u v x : List Char} (hu : Spelt c.before u) (hx : Spelt ps.tokens x) (hv : Spelt c.after v) :
    Spelt (c.fill ps).tokens (u ++ (x ++ v)) :=
  c.tokens_fill ps ▸ hu.append (hx.append hv)

theorem ofBranch_join_congr {z u s t : List Char} (hz : depth isOpener isCloser 0 z = 0)
    (l : Slash) (h : Score.ofBranch (u ++ s) = Score.ofBranch (u ++ t)) :
    Score.ofBranch (z ++ (l.symbol.text ++ u) ++ s)
      = Score.ofBranch (z ++ (l.symbol.text ++ u) ++ t) := by
  simp only [List.append_assoc, ofBranch_join hz, h]

/-- Texts are cut at the same places as long as the predicates in the hole are spelt there. -/
theorem Context.even {k : Part} (c : Context k) {ps qs : Phrase .predicates} (h : ps.Balances qs)
    {u v x y : List Char} (hu : Spelt c.before u) (hv : Spelt c.after v) (hx : Spelt ps.tokens x)
    (hy : Spelt qs.tokens y) : k.Even (u ++ (x ++ v)) (u ++ (y ++ v)) := by
  induction c generalizing u v with
  | tested axis t c ih =>
    rw [before, ← List.append_assoc] at hu
    obtain ⟨f, u, rfl, hf, hu⟩ := hu.cut
    show Score.ofBranch _ = Score.ofBranch _
    rw [List.append_assoc, List.append_assoc, ofBranch_tested hf (spelt_fill hu hx hv),
      ofBranch_tested hf (spelt_fill hu hy hv), c.sum_predicates_fill h]
  | last c ih => exact ih hu hv
  | joinLeft c l ss ih =>
    obtain ⟨v, z, rfl, hv, hz⟩ := hv.cut_symbol
    have hs := ((c.fill ps).balanced .both (spelt_fill hu hx hv)).depth_eq 0
    have ht := ((c.fill qs).balanced .both (spelt_fill hu hy hv)).depth_eq 0
    have cut := ofBranch_join hs l z
    have cut' := ofBranch_join ht l z
    simp only [List.append_assoc] at cut cut'
    exact cut.trans ((congrArg (· + _) (ih hu hv)).trans cut'.symm)
  | joinRight s l c ih =>
    obtain ⟨z, u, rfl, hz, hu⟩ := hu.cut_symbol
    exact ofBranch_join_congr ((s.balanced .both hz).depth_eq 0) l (ih hu hv)
  | absolute l c ih =>
    obtain ⟨b, u, rfl, hb, hu⟩ := hu.cut_cons
    have balanced := Counting.both.blank hb (Part.top_of_notMem .path)
    exact ofBranch_join_congr (balanced.depth_eq 0) l (ih hu hv)
  | relative c ih => exact ih hu hv
  | alone c ih =>
    have hs := (c.fill ps).balanced .both (spelt_fill hu hx hv)
    have ht := (c.fill qs).balanced .both (spelt_fill hu hy hv)
    show (splitOutside '|' _).map _ = (splitOutside '|' _).map _
    rw [splitOutside_of_balanced hs, splitOutside_of_balanced ht]
    exact congrArg ([·]) (ih hu hv)
  | unionLeft c q ih =>
    obtain ⟨v, z, rfl, hv, hz⟩ := hv.cut_symbol
    have hs := (c.fill ps).balanced .both (spelt_fill hu hx hv)
    have ht := (c.fill qs).balanced .both (spelt_fill hu hy hv)
    have cut := map_ofBranch_join (hs.depth_eq 0) z
    have cut' := map_ofBranch_join (ht.depth_eq 0) z
    rw [splitOutside_of_balanced hs] at cut
    rw [splitOutside_of_balanced ht] at cut'
    simp only [List.append_assoc] at cut cut'
    exact cut.trans ((congrArg (fun b => [b] ++ _) (ih hu hv)).trans cut'.symm)
  | unionRight p c ih =>
    obtain ⟨z, u, rfl, hz, hu⟩ := hu.cut_symbol
    have hd := (p.balanced .both hz).depth_eq 0
    show (splitOutside '|' _).map _ = (splitOutside '|' _).map _
    rw [List.append_assoc, List.append_assoc, List.append_assoc, List.append_assoc,
      map_ofBranch_join hd, map_ofBranch_join hd]
    exact congrArg (_ ++ ·) (ih hu hv)
  | _ => trivial

/-! ### Runs of predicates -/

def Phrase.prepend (ps : List (Phrase .predicate)) (rest : Phrase .predicates) :
    Phrase .predicates :=
  ps.foldr .more rest

section Runs

variable {ps qs : List (Phrase .predicate)} {rest : Phrase .predicates}

theorem Phrase.tokens_prepend (ps : List (Phrase .predicate)) (rest : Phrase .predicates) :
    (prepend ps rest).tokens = ps.flatMap Query.bracketed ++ rest.tokens := by
  induction ps with
  | nil => rfl
  | cons p ps ih =>
    have head : (prepend (p :: ps) rest).tokens
        = Query.bracketed p ++ (prepend ps rest).tokens := by
      simp [prepend, tokens, Query.bracketed]
    rw [head, ih, List.flatMap_cons, List.append_assoc]

theorem Phrase.tree_prepend (ps : List (Phrase .predicate)) (rest : Phrase .predicates) :
    (prepend ps rest).tree = List.append (ps.map tree) rest.tree := by
  induction ps with
  | nil => rfl
  | cons p ps ih => exact congrArg (p.tree :: ·) ih

theorem Phrase.predicates_prepend (ps : List (Phrase .predicate)) (rest : Phrase .predicates) :
    (prepend ps rest).predicates = ps ++ rest.predicates := by
  induction ps with
  | nil => rfl
  | cons p ps ih => exact congrArg (p :: ·) ih

theorem Phrase.entails_prepend {d : Document}
    (free : ∀ p ∈ ps, Predicate.countsPosition p.tree = false) (h : ∀ p, p ∈ qs ↔ p ∈ ps) :
    Part.predicates.Entails d (prepend ps rest).tree (prepend qs rest).tree := by
  rintro m ⟨axis, S⟩ hm
  have mem (p : Predicate) : p ∈ qs.map tree ↔ p ∈ ps.map tree :=
    List.mem_map.trans ((exists_congr fun q => and_congr_left fun _ => h q).trans List.mem_map.symm)
  rw [tree_prepend] at hm ⊢
  exact (survives_reordered (List.forall_mem_map.2 free) mem).1 hm

theorem Phrase.balances_prepend (h : ps.Perm qs) :
    (prepend ps rest).Balances (prepend qs rest) where
  sum := by
    rw [predicates_prepend, predicates_prepend]
    exact Score.sum_perm ((h.append_right _).map _)
  tokens t := by
    simp only [tokens_prepend, List.mem_append, List.mem_flatMap, h.mem_iff]

theorem Phrase.exists_prepend {s t : List Token} (hs : ∀ us, s ≠ .symbol .leftBracket :: us)
    {ps : List (Phrase .predicate)} {qs : Phrase .predicates}
    (h : ps.flatMap Query.bracketed ++ t = qs.tokens ++ s) :
    ∃ rest, qs = prepend ps rest ∧ t = rest.tokens ++ s := by
  induction ps generalizing qs with
  | nil => exact ⟨qs, rfl, h⟩
  | cons p ps ih =>
    rw [List.flatMap_cons, List.append_assoc] at h
    cases qs with
    | none => exact absurd h.symm (hs _)
    | more q qs =>
      have inner : p.tokens ++ .symbol .rightBracket :: (ps.flatMap Query.bracketed ++ t)
          = q.tokens ++ .symbol .rightBracket :: (qs.tokens ++ s) := by
        simpa [Query.bracketed, tokens] using h
      obtain ⟨hp, -, hqs⟩ := tokens_append_cons_inj p q (by decide) (by decide) inner
      obtain ⟨rest, rfl, ht⟩ := ih hqs
      exact ⟨rest, by rw [tokens_injective hp]; rfl, ht⟩

theorem Phrase.exists_run {e : Phrase .query} {s t : List Token} (hne : ps ≠ [])
    (h : e.tokens = s ++ (ps.flatMap Query.bracketed ++ t)) :
    ∃ (c : Context .query) (rest : Phrase .predicates),
      e = c.fill (prepend ps rest) ∧ s = c.before ∧ t = rest.tokens ++ c.after := by
  obtain ⟨p, ps, rfl⟩ := List.exists_cons_of_ne_nil hne
  have inner : p.tokens ++ .symbol .rightBracket :: (ps.flatMap Query.bracketed ++ t)
      = (p.tokens ++ [.symbol .rightBracket]) ++ (ps.flatMap Query.bracketed ++ t) := by simp
  rw [List.flatMap_cons, List.append_assoc] at h
  obtain ⟨c, qs, rfl, hs, ht⟩ := e.exists_context (r := []) h ((List.append_nil _).trans inner.symm)
  rw [List.append_nil] at ht
  obtain ⟨rest, rfl, ht'⟩ := exists_prepend c.after_ne ht
  exact ⟨c, rest, rfl, hs, ht'⟩

end Runs

/-! ### Texts -/

section Texts

variable {f : List Char → Phrase .predicate} {ws : List (List Char)}
  (hws : ∀ w ∈ ws, Token.list w = .ok (bracketed (f w))) {a b : List Char} {s t : List Token}
  (hb : Token.list b = .ok t)

include hws hb

theorem Token.list_flatten :
    Token.list (ws.flatten ++ b) = .ok ((ws.map f).flatMap bracketed ++ t) := by
  induction ws with
  | nil => exact hb
  | cons w ws ih =>
    obtain ⟨hw, hws⟩ := List.forall_mem_cons.1 hws
    rw [List.flatten_cons, List.append_assoc, List.map_cons, List.flatMap_cons, List.append_assoc]
    refine list_append hw (ih hws) fun u hu => ?_
    rw [bracketed, ← List.cons_append, List.getLast?_concat] at hu
    cases hu
    exact rightBracket_clear (ih hws)

theorem Token.list_run (ha : Token.list a = .ok s) (hne : ws ≠ []) :
    Token.list (a ++ (ws.flatten ++ b)) = .ok (s ++ ((ws.map f).flatMap bracketed ++ t)) := by
  obtain ⟨w, ws, rfl⟩ := List.exists_cons_of_ne_nil hne
  have h := list_flatten hws hb
  exact list_append ha h fun u _ => u.clear_leftBracket h

end Texts

end Query

open Query Document

namespace Pattern

theorem branches_run {c : Context .query} {rest : Phrase .predicates}
    {f : List Char → Phrase .predicate} {ws ws' : List (List Char)} {a b : List Char}
    (hws : ∀ w ∈ ws, Token.list w = .ok (bracketed (f w)))
    (hws' : ∀ w ∈ ws', Token.list w = .ok (bracketed (f w))) (ha : Token.list a = .ok c.before)
    (hb : Token.list b = .ok (rest.tokens ++ c.after)) (perm : ws.Perm ws') :
    (branches (.ofList (a ++ (ws.flatten ++ b)))).map Score.ofBranch
      = (branches (.ofList (a ++ (ws'.flatten ++ b)))).map Score.ofBranch := by
  have none : Token.list [] = .ok [] := Token.list_blank rfl
  have run {ws : List (List Char)} (hws : ∀ w ∈ ws, Token.list w = .ok (bracketed (f w))) :
      Token.list ws.flatten = .ok ((ws.map f).flatMap bracketed) := by
    simpa using Token.list_flatten hws none
  obtain ⟨u, hu, strip⟩ := Token.list_spelt ha
  obtain ⟨x, hx, stripx⟩ := Token.list_spelt (run hws)
  obtain ⟨y, hy, stripy⟩ := Token.list_spelt (run hws')
  obtain ⟨v, hv, stripv⟩ := Token.list_spelt hb
  obtain ⟨r, v, rfl, hr, hv⟩ := hv.cut
  have stripb : stripLiterals b = r ++ v := by simpa using stripv []
  have spelt {ws : List (List Char)} {z : List Char} (hz : Spelt ((ws.map f).flatMap bracketed) z) :
      Spelt (Phrase.prepend (ws.map f) rest).tokens (z ++ r) := by
    rw [Phrase.tokens_prepend]
    exact hz.append hr
  have even : (splitOutside '|' _).map Score.ofBranch = (splitOutside '|' _).map Score.ofBranch :=
    c.even (Phrase.balances_prepend (perm.map f)) hu hv (spelt hx) (spelt hy)
  simp only [branches, String.toList_ofList, strip, stripx, stripy, stripb]
  simpa only [List.append_assoc] using even

theorem scored_of_even {P P' : String}
    (h : (branches P).map Score.ofBranch = (branches P').map Score.ofBranch) :
    Specificity.of P = .of P' ∧ Features.of P = .of P' := by
  have length := congrArg List.length h
  rw [List.length_map, List.length_map] at length
  constructor
  · have weakest_eq := congrArg (fun ss => weakest (ss.map (·.specificity))) h
    simpa only [Specificity.of_branches, List.map_map, Function.comp_def] using weakest_eq
  · rw [Features.of_branches, Features.of_branches, h, length]

/-- A predicate between brackets that does not count positions. -/
def IsUncountedPredicate (w : List Char) : Prop :=
  ∃ p, Token.list w = .ok (bracketed p) ∧ Predicate.countsPosition p.tree = false

/-- Predicates side by side that do not count positions can be written in any order, and one of them
twice, without a change of what the pattern selects. In any order they rank the same. -/
theorem reordered_predicates {a b : List Char} {s t : List Token} (ha : Token.list a = .ok s)
    (hb : Token.list b = .ok t) {ws ws' : List (List Char)}
    (free : ∀ w ∈ ws, IsUncountedPredicate w) (mem : ∀ w, w ∈ ws' ↔ w ∈ ws)
    (accepted : Accepted (.ofList (a ++ (ws.flatten ++ b)))) :
    let P := String.ofList (a ++ (ws.flatten ++ b))
    let P' := String.ofList (a ++ (ws'.flatten ++ b))
    Accepted P' ∧ (∀ (d : Document) (n : d.Node),
        (Evaluator.ofQueries d).select P' n = (Evaluator.ofQueries d).select P n ∧
          (Evaluator.ofQueries d).accepts P' n = (Evaluator.ofQueries d).accepts P n) ∧
      (ws.Perm ws' → Specificity.of P' = .of P ∧ Features.of P' = .of P) := by
  intro P P'
  rcases eq_or_ne ws [] with rfl | hne
  · have same : ws' = [] := List.eq_nil_iff_forall_not_mem.2 fun w hw => nomatch (mem w).1 hw
    subst same
    exact ⟨accepted, fun d n => ⟨rfl, rfl⟩, fun _ => ⟨rfl, rfl⟩⟩
  have : Nonempty (Phrase .predicate) := ⟨.position 0⟩
  choose! f hws hfree using free
  have hws' : ∀ w ∈ ws', Token.list w = .ok (bracketed (f w)) := fun w hw => hws w ((mem w).1 hw)
  have hne' : ws' ≠ [] := by
    obtain ⟨w, hw⟩ := List.exists_mem_of_ne_nil ws hne
    exact List.ne_nil_of_mem ((mem w).2 hw)
  obtain ⟨q, hP⟩ := accepted
  obtain ⟨e, he, rfl⟩ := parse_eq_ok.1 hP
  rw [String.toList_ofList, Token.list_run hws hb ha hne] at he
  obtain ⟨c, rest, rfl, rfl, rfl⟩ :=
    Phrase.exists_run (mt List.map_eq_nil_iff.1 hne) (Except.ok.inj he).symm
  have hP' : Query.parse P' = .ok (c.fill (Phrase.prepend (ws'.map f) rest)).tree := by
    refine parse_eq_ok.2 ⟨_, ?_, rfl⟩
    rw [String.toList_ofList, Token.list_run hws' hb ha hne', c.tokens_fill, Phrase.tokens_prepend,
      List.append_assoc]
  have memf (p : Phrase .predicate) : p ∈ ws'.map f ↔ p ∈ ws.map f := by
    simp only [List.mem_map, mem]
  have free : ∀ p ∈ ws.map f, Predicate.countsPosition p.tree = false :=
    List.forall_mem_map.2 hfree
  have free' : ∀ p ∈ ws'.map f, Predicate.countsPosition p.tree = false :=
    fun p hp => free p ((memf p).1 hp)
  refine ⟨⟨_, hP'⟩, fun d n => ?_, fun perm => ?_⟩
  · obtain ⟨select, accepts⟩ := answers_of_parse_ok hP n
    obtain ⟨select', accepts'⟩ := answers_of_parse_ok hP' n
    have same : Query.select (c.fill (Phrase.prepend (ws.map f) rest)).tree n
        = Query.select (c.fill (Phrase.prepend (ws'.map f) rest)).tree n :=
      c.select_eq (Phrase.entails_prepend free memf)
        (Phrase.entails_prepend free' fun p => (memf p).symm) n
    rw [select, select', accepts, accepts', same]
    exact ⟨rfl, rfl⟩
  · exact scored_of_even (branches_run hws hws' ha hb perm).symm

/-- Two predicates before a position, inside of a negation, one of them with a position inside. -/
theorem reordered_predicates_item :
    let P := "list[not(item[@k] [x[1]][2])][3]"
    let P' := "list[not(item [x[1]][@k][2])][3]"
    IsUncountedPredicate "[@k]".toList ∧ IsUncountedPredicate " [x[1]]".toList ∧ Accepted P ∧
      Accepted P' ∧ (∀ (d : Document) (n : d.Node),
        (Evaluator.ofQueries d).select P' n = (Evaluator.ofQueries d).select P n ∧
          (Evaluator.ofQueries d).accepts P' n = (Evaluator.ofQueries d).accepts P n) ∧
      Specificity.of P' = .of P ∧ Features.of P' = .of P := by
  intro P P'
  let ws := ["[@k]".toList, " [x[1]]".toList]
  let ws' := [" [x[1]]".toList, "[@k]".toList]
  have hk : IsUncountedPredicate "[@k]".toList := ⟨.attributed "k" none, by cbv, rfl⟩
  have hx : IsUncountedPredicate " [x[1]]".toList :=
    ⟨.selects (.alone (.relative (.last (.tested none (.name "x") (.more (.position 1) .none))))),
      by cbv, rfl⟩
  have hP : Accepted P := ⟨_, by cbv⟩
  obtain ⟨s, ha⟩ : ∃ s, Token.list "list[not(item".toList = .ok s := ⟨_, by cbv⟩
  obtain ⟨t, hb⟩ : ∃ t, Token.list "[2])][3]".toList = .ok t := ⟨_, by cbv⟩
  have free : ∀ w ∈ ws, IsUncountedPredicate w :=
    List.forall_mem_cons.2 ⟨hk, List.forall_mem_singleton.2 hx⟩
  have perm : ws.Perm ws' := List.Perm.swap ..
  have mem (w : List Char) : w ∈ ws' ↔ w ∈ ws := perm.symm.mem_iff
  obtain ⟨hP', same, scored⟩ := reordered_predicates ha hb free mem hP
  exact ⟨hk, hx, hP, hP', same, scored perm⟩

end Pattern

end Stylesheet
