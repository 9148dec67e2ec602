import Mathlib.Data.List.Basic
import Mathlib.Data.List.Induction
import Mathlib.Data.String.Basic
import Stylesheet.Proofs.Pattern.Specificity
import Stylesheet.Registry

namespace Stylesheet

variable {β : Type}

namespace Rule

def Exceeds (a b : Rule β) : Prop :=
  b.specificity < a.specificity ∨ a.specificity = b.specificity ∧ b.sequence < a.sequence

theorem outranks_iff {a b : Rule β} : a.outranks b = true ↔ a.Exceeds b := by
  simp [outranks, Exceeds]

theorem Exceeds.irrefl (a : Rule β) : ¬a.Exceeds a := by
  rintro (h | ⟨-, h⟩)
  · exact Specificity.lt_irrefl _ h
  · exact Nat.lt_irrefl _ h

theorem Exceeds.trans {a b c : Rule β} (h : a.Exceeds b) (k : b.Exceeds c) : a.Exceeds c := by
  rcases h with h | ⟨h, h'⟩ <;> rcases k with k | ⟨k, k'⟩
  · exact .inl (Specificity.lt_trans k h)
  · exact .inl (k ▸ h)
  · exact .inl (h ▸ k)
  · exact .inr ⟨h.trans k, Nat.lt_trans k' h'⟩

theorem Exceeds.total {a b : Rule β} (h : a.sequence ≠ b.sequence) :
    a.Exceeds b ∨ b.Exceeds a := by
  rcases Specificity.lt_trichotomy a.specificity b.specificity with hs | hs | hs
  · exact .inr (.inl hs)
  · rcases Nat.lt_or_gt_of_ne h with hn | hn
    · exact .inr (.inr ⟨hs.symm, hn⟩)
    · exact .inl (.inr ⟨hs, hn⟩)
  · exact .inl (.inl hs)

end Rule

theorem insertRanked_perm (r : Rule β) (rules : List (Rule β)) :
    (insertRanked r rules).Perm (r :: rules) := by
  induction rules with
  | nil => exact .refl _
  | cons s rest ih =>
    rw [insertRanked]
    split
    · exact (ih.cons s).trans (.swap ..)
    · exact .refl _

theorem pairwise_insertRanked {r : Rule β} {rules : List (Rule β)}
    (h : rules.Pairwise Rule.Exceeds) (hr : ∀ s ∈ rules, s.sequence ≠ r.sequence) :
    (insertRanked r rules).Pairwise Rule.Exceeds := by
  induction rules with
  | nil => exact List.pairwise_singleton ..
  | cons s rest ih =>
    obtain ⟨hs, hrest⟩ := List.pairwise_cons.1 h
    have ih := ih hrest fun t ht => hr t (List.mem_cons_of_mem _ ht)
    rw [insertRanked]
    split
    next hsr =>
      refine List.pairwise_cons.2 ⟨fun t ht => ?_, ih⟩
      rcases List.mem_cons.1 ((insertRanked_perm r rest).mem_iff.1 ht) with rfl | ht
      · exact Rule.outranks_iff.1 hsr
      · exact hs t ht
    next hsr =>
      rw [Rule.outranks_iff] at hsr
      have hrs := (Rule.Exceeds.total (hr s List.mem_cons_self)).resolve_left hsr
      refine List.pairwise_cons.2 ⟨fun t ht => ?_, h⟩
      rcases List.mem_cons.1 ht with rfl | ht
      · exact hrs
      · exact hrs.trans (hs t ht)

def Registration.rule (r : Registration β) (n : Nat) : Rule β :=
  ⟨⟨r.pattern, r.mode, .of r.pattern⟩, n, r.body⟩

/-- The rules of a history, each numbered by the registrations before it. -/
def allRules (history : List (Registration β)) : List (Rule β) :=
  history.zipIdx.map fun entry => entry.1.rule entry.2

def rulesIn (history : List (Registration β)) (m : Mode) : List (Rule β) :=
  (allRules history).filter fun r => r.head.mode = m

theorem allRules_concat (history : List (Registration β)) (r : Registration β) :
    allRules (history ++ [r]) = allRules history ++ [r.rule history.length] := by
  simp [allRules, List.zipIdx_append]

theorem rulesIn_concat (history : List (Registration β)) (r : Registration β) (m : Mode) :
    rulesIn (history ++ [r]) m
      = rulesIn history m ++ if r.mode = m then [r.rule history.length] else [] := by
  rw [rulesIn, allRules_concat, List.filter_append, List.filter_singleton]
  by_cases h : r.mode = m <;> simp [rulesIn, Registration.rule, h]

theorem mem_rulesIn {history : List (Registration β)} {m : Mode} {r : Rule β} :
    r ∈ rulesIn history m ↔
      ∃ (n : Nat) (x : Registration β), history[n]? = some x ∧ x.mode = m ∧ r = x.rule n := by
  simp only [rulesIn, allRules, List.mem_filter, List.mem_map, decide_eq_true_eq, Prod.exists,
    List.mem_zipIdx_iff_getElem?]
  constructor
  · rintro ⟨⟨x, n, hx, rfl⟩, hm⟩
    exact ⟨n, x, hx, hm, rfl⟩
  · rintro ⟨n, x, hx, hm, rfl⟩
    exact ⟨⟨x, n, hx, rfl⟩, hm⟩

theorem sequence_lt_of_mem_rulesIn {history : List (Registration β)} {m : Mode} {r : Rule β}
    (h : r ∈ rulesIn history m) : r.sequence < history.length := by
  obtain ⟨n, x, hx, -, rfl⟩ := mem_rulesIn.1 h
  exact (List.getElem?_eq_some_iff.1 hx).1

namespace Registry

def Sorted (shelves : List (Mode × Shelf β)) : Prop :=
  shelves.Pairwise fun a b => a.1.name < b.1.name

theorem lookup_eq_none {m : Mode} {shelves : List (Mode × Shelf β)}
    (h : ∀ e ∈ shelves, m.name < e.1.name) : shelves.lookup m = none := by
  rw [List.lookup_eq_none_iff]
  intro e he
  rw [bne_iff_ne]
  rintro rfl
  exact lt_irrefl _ (h e he)

theorem lookup_cons_eq (m : Mode) (e : Mode × Shelf β) (rest : List (Mode × Shelf β)) :
    (e :: rest).lookup m = if e.1 = m then some e.2 else rest.lookup m := by
  rw [List.lookup_cons]
  by_cases h : e.1 = m
  · simp [h]
  · simp [h, beq_eq_false_iff_ne.2 (Ne.symm h)]

theorem name_of_mem_place {r : Rule β} {shelves : List (Mode × Shelf β)} {e : Mode × Shelf β}
    (h : e ∈ place r shelves) : e.1 = r.head.mode ∨ ∃ f ∈ shelves, e.1 = f.1 := by
  induction shelves with
  | nil =>
    rw [place, List.mem_singleton] at h
    exact .inl (h ▸ rfl)
  | cons f rest ih =>
    rw [place] at h
    split at h
    · rcases List.mem_cons.1 h with rfl | h
      · exact .inr ⟨f, List.mem_cons_self, rfl⟩
      · exact .inr ⟨e, List.mem_cons_of_mem _ h, rfl⟩
    · split at h
      · rcases List.mem_cons.1 h with rfl | h
        · exact .inl rfl
        · exact .inr ⟨e, h, rfl⟩
      · rcases List.mem_cons.1 h with rfl | h
        · exact .inr ⟨f, List.mem_cons_self, rfl⟩
        · rcases ih h with he | ⟨x, hx, he⟩
          · exact .inl he
          · exact .inr ⟨x, List.mem_cons_of_mem _ hx, he⟩

theorem name_lt_of_not_lt {m n : Mode} (hne : m ≠ n) (h : ¬m.name < n.name) : n.name < m.name := by
  refine lt_of_le_of_ne (not_lt.1 h) fun e => hne ?_
  cases m; cases n
  simpa using e.symm

theorem sorted_place {shelves : List (Mode × Shelf β)} (hs : Sorted shelves) (r : Rule β) :
    Sorted (place r shelves) := by
  induction shelves with
  | nil => exact List.pairwise_singleton ..
  | cons f rest ih =>
    obtain ⟨hf, hrest⟩ := List.pairwise_cons.1 hs
    rw [place]
    split
    · exact List.pairwise_cons.2 ⟨hf, hrest⟩
    next hne =>
      split
      next hlt =>
        refine List.pairwise_cons.2 ⟨fun e he => ?_, hs⟩
        rcases List.mem_cons.1 he with rfl | he
        · exact hlt
        · exact lt_trans hlt (hf e he)
      next hlt =>
        refine List.pairwise_cons.2 ⟨fun e he => ?_, ih hrest⟩
        rcases name_of_mem_place he with he | ⟨x, hx, he⟩
        · rw [he]
          exact name_lt_of_not_lt hne hlt
        · rw [he]
          exact hf x hx

theorem lookup_place {shelves : List (Mode × Shelf β)} (hs : Sorted shelves) (r : Rule β)
    (m : Mode) : (place r shelves).lookup m
      = if r.head.mode = m then some (((shelves.lookup m).getD .empty).insert r)
        else shelves.lookup m := by
  induction shelves with
  | nil => rw [place, lookup_cons_eq]; rfl
  | cons f rest ih =>
    obtain ⟨hf, hrest⟩ := List.pairwise_cons.1 hs
    rw [place]
    split
    next hr =>
      rw [lookup_cons_eq, lookup_cons_eq, hr]
      split <;> rfl
    next hne =>
      split
      next hlt =>
        rw [lookup_cons_eq]
        split
        next hm =>
          have none : (f :: rest).lookup m = none := by
            refine lookup_eq_none fun e he => ?_
            rw [← hm]
            rcases List.mem_cons.1 he with rfl | he
            · exact hlt
            · exact lt_trans hlt (hf e he)
          rw [none]
          rfl
        next => rfl
      next =>
        rw [lookup_cons_eq, lookup_cons_eq, ih hrest]
        split
        next hm => rw [if_neg fun h => hne (h.trans hm.symm)]
        next => rfl

theorem shelf_register {g : Registry β} (h : Sorted g.shelves) (r : Registration β) (m : Mode) :
    (g.register r).shelf m
      = if r.mode = m then (g.shelf m).insert (g.nextRule r) else g.shelf m := by
  rw [shelf, register, lookup_place h]
  exact apply_ite (Option.getD · Shelf.empty) ..

/-- What a registry holds of its history. -/
structure Records (g : Registry β) (history : List (Registration β)) : Prop where
  registered : g.registered = history.length
  sorted : Sorted g.shelves
  rules (m : Mode) : g.rules m = rulesIn history m
  perm (m : Mode) : (g.ranked m).Perm (rulesIn history m)
  decreasing (m : Mode) : (g.ranked m).Pairwise Rule.Exceeds

@[simp] theorem shelf_empty (m : Mode) : (.empty : Registry β).shelf m = .empty := by
  rw [shelf, empty, lookup_cons_eq]
  split <;> rfl

theorem Records.empty : Records (.empty : Registry β) [] where
  registered := rfl
  sorted := List.pairwise_singleton ..
  rules m := by rw [Registry.rules, shelf_empty]; rfl
  perm m := by rw [ranked, shelf_empty]; exact .refl _
  decreasing m := by rw [ranked, shelf_empty]; exact .nil

theorem Records.nextRule_eq {g : Registry β} {history : List (Registration β)}
    (h : g.Records history) (r : Registration β) : g.nextRule r = r.rule history.length := by
  rw [nextRule, h.registered, Registration.rule]

theorem Records.ranked_register {g : Registry β} {history : List (Registration β)}
    (h : g.Records history) (r : Registration β) (m : Mode) :
    (g.register r).ranked m
      = if r.mode = m then insertRanked (r.rule history.length) (g.ranked m) else g.ranked m := by
  rw [ranked, shelf_register h.sorted, h.nextRule_eq]
  split <;> rfl

theorem Records.register {g : Registry β} {history : List (Registration β)}
    (h : g.Records history) (r : Registration β) :
    (g.register r).Records (history ++ [r]) where
  registered := by simp [Registry.register, h.registered]
  sorted := sorted_place h.sorted _
  rules m := by
    rw [rulesIn_concat, ← h.rules, Registry.rules, shelf_register h.sorted, h.nextRule_eq]
    split
    · exact Array.toList_push
    · exact (List.append_nil _).symm
  perm m := by
    rw [rulesIn_concat, h.ranked_register]
    split
    · exact (insertRanked_perm _ _).trans
        (((h.perm m).cons _).trans (List.perm_append_singleton ..).symm)
    · rw [List.append_nil]
      exact h.perm m
  decreasing m := by
    rw [h.ranked_register]
    split
    · refine pairwise_insertRanked (h.decreasing m) fun s hs => ?_
      exact Nat.ne_of_lt (sequence_lt_of_mem_rulesIn ((h.perm m).mem_iff.1 hs))
    · exact h.decreasing m

theorem records_ofList (history : List (Registration β)) : (ofList history).Records history := by
  induction history using List.reverseRecOn with
  | nil => exact .empty
  | append_singleton history r ih =>
    rw [ofList, List.foldl_append]
    exact ih.register r

end Registry

end Stylesheet
