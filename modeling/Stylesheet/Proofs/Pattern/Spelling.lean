import Stylesheet.Pattern.Score
import Stylesheet.Proofs.Pattern.Split
import Stylesheet.Proofs.Query.Layout

/-! Stripping the literals of a pattern and cutting the pattern into tokens go together: what is
left is the tokens in their order, with blanks between them and two quotation marks for each
literal. -/

namespace Stylesheet

namespace Pattern

def isQuote (c : Char) : Bool := c == '"' || c == '\''

theorem isQuote_of_notMem {c : Char} (h : c ∉ signs) : isQuote c = false := by
  rw [isQuote, Bool.or_eq_false_iff, beq_eq_false_iff_ne, beq_eq_false_iff_ne]
  constructor <;> rintro rfl <;> exact h (by decide)

theorem stripLiterals_go_append (done s more : List Char) :
    stripLiterals.go (done ++ more) s = more.reverse ++ stripLiterals.go done s := by
  induction done, s using stripLiterals.go.induct with
  | case1 done => simp [stripLiterals.go]
  | case2 done c rest h ih =>
    rw [stripLiterals.go, if_pos h, stripLiterals.go, if_pos h]
    exact ih
  | case3 done c rest h ih =>
    rw [stripLiterals.go, if_neg h, stripLiterals.go, if_neg h]
    exact ih

theorem stripLiterals_go (done s : List Char) :
    stripLiterals.go done s = done.reverse ++ stripLiterals s :=
  stripLiterals_go_append [] s done

@[simp] theorem stripLiterals_nil : stripLiterals [] = [] := by
  rw [stripLiterals, stripLiterals.go]
  rfl

theorem stripLiterals_cons {c : Char} (h : isQuote c = false) (s : List Char) :
    stripLiterals (c :: s) = c :: stripLiterals s := by
  rw [stripLiterals, stripLiterals.go, if_neg, stripLiterals_go]
  · rfl
  · rw [isQuote] at h
    simp [h]

theorem stripLiterals_append {f : List Char} (h : ∀ c ∈ f, isQuote c = false) (s : List Char) :
    stripLiterals (f ++ s) = f ++ stripLiterals s := by
  induction f with
  | nil => rfl
  | cons c f ih =>
    rw [List.cons_append, stripLiterals_cons (h c List.mem_cons_self),
      ih fun d hd => h d (List.mem_cons_of_mem _ hd)]
    rfl

theorem stripLiterals_eq_self {f : List Char} (h : ∀ c ∈ f, isQuote c = false) :
    stripLiterals f = f := by
  have := stripLiterals_append h []
  rwa [List.append_nil, stripLiterals_nil, List.append_nil] at this

theorem stripLiterals_literal {q : Char} (hq : isQuote q = true) {v : List Char} (hv : q ∉ v)
    (s : List Char) : stripLiterals (q :: (v ++ q :: s)) = '\'' :: '\'' :: stripLiterals s := by
  have hne : ∀ c ∈ v, (c != q) = true := fun c hc => bne_iff_ne.2 fun e => hv (e ▸ hc)
  rw [stripLiterals, stripLiterals.go, if_pos, stripLiterals_go, List.dropWhile_append_of_pos hne]
  · simp
  · rw [isQuote] at hq
    simp [hq]

end Pattern

namespace Query

open Text Pattern

/-- What stands for a token once the literals are stripped. -/
inductive Token.Face : Token → List Char → Prop
  | symbol (y : Symbol) : Face (.symbol y) y.text
  | literal (v : String) : Face (.literal v) ['\'', '\'']
  | number {n : Nat} {f : List Char} (hne : f ≠ []) (h : ∀ c ∈ f, isDecimalDigit c = true)
      (hn : decimal? 18446744073709551616 f = some n) : Face (.number n) f
  | name {c : Char} {f : List Char} (hc : isNameStart c = true)
      (h : ∀ d ∈ c :: f, isNameChar d = true ∨ d = ':') :
      Face (.name (String.ofList (c :: f))) (c :: f)

/-- The tokens in their order, with blanks before, between and after them. -/
inductive Spelt : List Token → List Char → Prop
  | nil {b : List Char} (hb : Blank b) : Spelt [] b
  | cons {t : Token} {ts : List Token} {b f s : List Char} (hb : Blank b)
      (hf : t.Face f) (hs : Spelt ts s) : Spelt (t :: ts) (b ++ (f ++ s))

theorem digit_notMem_signs {c : Char} (h : isDecimalDigit c = true) : c ∉ signs := by
  have none : signs.all (fun d => !isDecimalDigit d) = true := rfl
  intro hc
  simpa [h] using List.all_eq_true.1 none c hc

theorem name_notMem_signs {c : Char} (h : isNameChar c = true ∨ c = ':') : c ∉ signs := by
  have none : signs.all (fun d => !(isNameChar d || d == ':')) = true := rfl
  intro hc
  have hn := List.all_eq_true.1 none c hc
  simp only [Bool.not_eq_true', Bool.or_eq_false_iff, beq_eq_false_iff_ne] at hn
  rcases h with h | h
  · exact Bool.false_ne_true (hn.1.symm.trans h)
  · exact hn.2 h

theorem isQuote_text (y : Symbol) : ∀ c ∈ y.text, isQuote c = false := by
  have none : y.text.all (fun c => !isQuote c) = true := by cases y <;> rfl
  intro c hc
  simpa using List.all_eq_true.1 none c hc

def Stands (t : Token) (raw : List Char) : Prop :=
  ∃ f, t.Face f ∧ ∀ u, stripLiterals (raw ++ u) = f ++ stripLiterals u

theorem IsName.nameChar {f : List Char} (h : IsName f) :
    ∀ c ∈ f, isNameChar c = true ∨ c = ':' := by
  cases h with
  | word h => exact fun c hc => .inl (h.nameChar c hc)
  | prefixed hs ht =>
    intro c hc
    rcases List.mem_append.1 hc with hc | hc
    · exact .inl (hs.nameChar c hc)
    · rcases List.mem_cons.1 hc with rfl | hc
      · exact .inr rfl
      · exact .inl (ht.nameChar c hc)

theorem IsName.not_blank {f : List Char} (h : IsName f) : ∀ c ∈ f, isBlank c = false := by
  intro c hc
  rcases h.nameChar c hc with h | rfl
  · exact isBlank_isNameChar h
  · rfl

theorem IsName.tight {f : List Char} (h : IsName f) : Tight f := by
  obtain ⟨c, r, rfl, -⟩ := (Token.Raw.name h).exists_starts
  exact tight_of_forall (List.cons_ne_nil c r) h.not_blank

theorem Symbol.tight (y : Symbol) : Tight y.text := by
  have hne : y.text ≠ [] := by cases y <;> exact List.cons_ne_nil _ _
  have h : y.text.all (fun c => !isBlank c) = true := by cases y <;> decide
  exact tight_of_forall hne fun c hc => by simpa using List.all_eq_true.1 h c hc

theorem Token.Raw.stands {t : Token} {r : List Char} (h : t.Raw r) : Stands t r := by
  cases h with
  | symbol y => exact ⟨_, .symbol y, stripLiterals_append (isQuote_text y)⟩
  | @literal q v hq hv =>
    have hq : isQuote q = true := by rcases hq with rfl | rfl <;> rfl
    refine ⟨_, .literal _, fun u => ?_⟩
    rw [List.cons_append, List.append_assoc]
    exact stripLiterals_literal hq hv u
  | number hne hf hlt =>
    have hd := fun c hc => isDecimalDigit_of_isDigit (hf c hc)
    exact ⟨_, .number hne hd ((decimal?_eq_some (by decide)).2 ⟨hf, rfl, hlt⟩),
      stripLiterals_append fun c hc => isQuote_of_notMem (digit_notMem_signs (hd c hc))⟩
  | name h =>
    have hf := h.nameChar
    obtain ⟨c, f, rfl, hc⟩ := (Token.Raw.name h).exists_starts
    exact ⟨_, .name hc hf, stripLiterals_append fun d hd =>
      isQuote_of_notMem (name_notMem_signs (hf d hd))⟩

theorem stripLiterals_blank_append {b : List Char} (hb : Blank b) (s : List Char) :
    stripLiterals (b ++ s) = b ++ stripLiterals s :=
  stripLiterals_append (fun c hc => isQuote_of_notMem (blank_notMem_signs (hb c hc))) s

theorem stripLiterals_blank {b : List Char} (hb : Blank b) : stripLiterals b = b :=
  stripLiterals_eq_self fun c hc => isQuote_of_notMem (blank_notMem_signs (hb c hc))

theorem stripLiterals_name {f : List Char} (h : IsName f) : stripLiterals f = f :=
  stripLiterals_eq_self fun c hc => isQuote_of_notMem (name_notMem_signs (h.nameChar c hc))

theorem stripLiterals_symbol (y : Symbol) : stripLiterals y.text = y.text :=
  stripLiterals_eq_self (isQuote_text y)

theorem Layout.stripLiterals_append {ps : List Spaced} {s : List Char} (h : Layout ps s)
    (u : List Char) : stripLiterals (s ++ u) = stripLiterals s ++ stripLiterals u := by
  induction h with
  | nil hb => rw [stripLiterals_blank_append hb, stripLiterals_blank hb]
  | cons hb hr h ih =>
    obtain ⟨f, -, hf⟩ := hr.stands
    rw [List.append_assoc, stripLiterals_blank_append hb, List.append_assoc, hf, ih,
      stripLiterals_blank_append hb, hf]
    simp

section Strip

variable {ps : List Spaced} {b s : List Char}

theorem Layout.strip_cons {t : Token} (h : Layout (⟨b, t⟩ :: ps) s) : ∃ r u, t.Raw r ∧ Layout ps u ∧
    Blank b ∧ stripLiterals s = b ++ (stripLiterals r ++ stripLiterals u) := by
  cases h with
  | @cons _ r u _ _ hb hr h =>
    refine ⟨r, u, hr, h, hb, ?_⟩
    rw [stripLiterals_blank_append hb, (Layout.single hr).stripLiterals_append]

theorem Layout.strip_symbol {y : Symbol} (h : Layout (⟨b, .symbol y⟩ :: ps) s) : ∃ u, Layout ps u ∧
    Blank b ∧ stripLiterals s = b ++ (y.text ++ stripLiterals u) := by
  obtain ⟨r, u, hr, hu, hb, e⟩ := h.strip_cons
  cases hr
  exact ⟨u, hu, hb, by rw [e, stripLiterals_symbol]⟩

theorem Layout.strip_name {n : String} (h : Layout (⟨b, .name n⟩ :: ps) s) : ∃ u, Layout ps u ∧
    Blank b ∧ IsName n.toList ∧ stripLiterals s = b ++ (n.toList ++ stripLiterals u) := by
  obtain ⟨r, u, hr, hu, hb, e⟩ := h.strip_cons
  cases hr with
  | name hf =>
    rw [String.toList_ofList]
    exact ⟨u, hu, hb, hf, by rw [e, stripLiterals_name hf]⟩

theorem Layout.strip_literal {v : String} (h : Layout (⟨b, .literal v⟩ :: ps) s) : ∃ u,
    Layout ps u ∧ Blank b ∧ stripLiterals s = b ++ (['\'', '\''] ++ stripLiterals u) := by
  obtain ⟨r, u, hr, hu, hb, e⟩ := h.strip_cons
  cases hr with
  | @literal q v hq hv =>
    have hq : isQuote q = true := by rcases hq with rfl | rfl <;> rfl
    exact ⟨u, hu, hb, by rw [e, stripLiterals_literal hq hv, stripLiterals_nil]⟩

theorem Layout.strip_nil (h : Layout [] s) : Blank (stripLiterals s) := by
  cases h with
  | nil hb => rwa [stripLiterals_blank hb]

end Strip

theorem Layout.spelt {ps : List Spaced} {s : List Char} (h : Layout ps s) :
    Spelt (ps.map Spaced.token) (stripLiterals s) := by
  induction h with
  | @nil b hb =>
    rw [stripLiterals_blank hb]
    exact .nil hb
  | cons hb hr h ih =>
    obtain ⟨f, hf, hstrip⟩ := hr.stands
    rw [stripLiterals_blank_append hb, hstrip]
    exact .cons hb hf ih

theorem Token.list_spelt {s : List Char} {ts : List Token} (h : list s = .ok ts) :
    ∃ s', Spelt ts s' ∧ ∀ u, stripLiterals (s ++ u) = s' ++ stripLiterals u := by
  obtain ⟨ps, hps, rfl⟩ := list_layout h
  exact ⟨_, hps.spelt, hps.stripLiterals_append⟩

section Cutting

variable {ts us : List Token} {s : List Char}

theorem Spelt.blank {b : List Char} (hb : Blank b) (h : Spelt ts s) :
    Spelt ts (b ++ s) := by
  cases h with
  | nil hs => exact .nil fun c hc => (List.mem_append.1 hc).elim (hb c) (hs c)
  | cons hb' hf hs =>
    rw [← List.append_assoc]
    exact .cons (fun c hc => (List.mem_append.1 hc).elim (hb c) (hb' c)) hf hs

theorem Spelt.append {u : List Char} (h : Spelt ts s) (hu : Spelt us u) :
    Spelt (ts ++ us) (s ++ u) := by
  induction h with
  | nil hb => exact hu.blank hb
  | cons hb hf hs ih =>
    rw [List.append_assoc, List.append_assoc]
    exact .cons hb hf ih

theorem Spelt.cut (h : Spelt (ts ++ us) s) : ∃ u v, s = u ++ v ∧ Spelt ts u ∧ Spelt us v := by
  induction ts generalizing s with
  | nil => exact ⟨[], s, rfl, .nil blank_nil, h⟩
  | cons t ts ih =>
    cases h with
    | @cons _ _ b f s hb hf hs =>
      obtain ⟨u, v, rfl, hu, hv⟩ := ih hs
      exact ⟨b ++ (f ++ u), v, by simp, .cons hb hf hu, hv⟩

theorem Spelt.cut_symbol {y : Symbol} (h : Spelt (ts ++ .symbol y :: us) s) :
    ∃ u v, s = u ++ (y.text ++ v) ∧ Spelt ts u ∧ Spelt us v := by
  obtain ⟨u, v, rfl, hu, hv⟩ := h.cut
  cases hv with
  | @cons _ _ b f v hb hf hv =>
    cases hf
    refine ⟨u ++ b, v, by simp, ?_, hv⟩
    simpa using hu.append (.nil hb)

theorem Spelt.cut_cons {y : Symbol} (h : Spelt (.symbol y :: us) s) :
    ∃ b v, s = b ++ (y.text ++ v) ∧ Blank b ∧ Spelt us v := by
  cases h with
  | cons hb hf hv =>
    cases hf
    exact ⟨_, _, rfl, hb, hv⟩

end Cutting

end Query

end Stylesheet
