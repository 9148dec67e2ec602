import Mathlib.Data.List.FinRange
import Mathlib.Data.List.Perm.Basic
import Stylesheet.Proofs.Registry

namespace Stylesheet.Registry

variable {β : Type}

theorem mem_modes_place {r : Rule β} {shelves : List (Mode × Shelf β)} {m : Mode} :
    m ∈ (place r shelves).map Prod.fst ↔ m = r.head.mode ∨ m ∈ shelves.map Prod.fst := by
  induction shelves with
  | nil => simp [place]
  | cons f rest ih =>
    rw [place]
    split
    next h => simp [h]
    next =>
      split
      · simp
      · simp only [List.map_cons, List.mem_cons, ih]
        exact or_left_comm

theorem size_place (r : Rule β) (shelves : List (Mode × Shelf β)) :
    (place r shelves).foldr (fun e n => e.2.arrivals.size + n) 0
      = shelves.foldr (fun e n => e.2.arrivals.size + n) 0 + 1 := by
  induction shelves with
  | nil => rfl
  | cons f rest ih =>
    rw [place]
    split
    · simp only [Shelf.insert, List.foldr_cons, Array.size_push]
      omega
    · split
      · simp only [Shelf.insert, Shelf.empty, List.foldr_cons, Array.size_push, List.size_toArray,
          List.length_nil]
        omega
      · simp only [List.foldr_cons, ih]
        omega

theorem size_register (g : Registry β) (r : Registration β) :
    (g.register r).size = g.size + 1 :=
  size_place ..

theorem mem_modes_register {g : Registry β} {r : Registration β} {m : Mode} :
    m ∈ (g.register r).modes ↔ m = r.mode ∨ m ∈ g.modes :=
  mem_modes_place

theorem size_ofList (history : List (Registration β)) :
    (ofList history).size = history.length := by
  induction history using List.reverseRecOn with
  | nil => rfl
  | append_singleton history r ih =>
    rw [ofList, List.foldl_append, List.length_append, List.length_singleton, ← ih]
    exact size_register ..

theorem mem_modes_ofList {history : List (Registration β)} {m : Mode} :
    m ∈ (ofList history).modes ↔ m = .default ∨ ∃ r ∈ history, r.mode = m := by
  induction history using List.reverseRecOn with
  | nil => simp [ofList, empty, modes]
  | append_singleton history r ih =>
    rw [ofList, List.foldl_append, List.foldl_cons, List.foldl_nil, mem_modes_register]
    show m = r.mode ∨ m ∈ (ofList history).modes ↔ _
    rw [ih]
    simp only [List.mem_append, List.mem_singleton, or_and_right, exists_or, exists_eq_left]
    rw [or_left_comm, or_comm (a := m = r.mode), eq_comm (a := m) (b := r.mode)]

theorem modes_eq_cons (history : List (Registration β)) :
    ∃ named, (ofList history).modes = .default :: named := by
  have sorted := (records_ofList history).sorted
  have hd : Mode.default ∈ (ofList history).modes := mem_modes_ofList.2 (.inl rfl)
  rw [modes] at hd ⊢
  cases hs : (ofList history).shelves with
  | nil => simp [hs] at hd
  | cons e rest =>
    rw [hs] at hd sorted
    rcases List.mem_cons.1 hd with h | h
    · exact ⟨rest.map Prod.fst, by rw [List.map_cons, ← h]⟩
    · obtain ⟨f, hf, he⟩ := List.mem_map.1 h
      have hlt := (List.pairwise_cons.1 sorted).1 f hf
      rw [he, String.lt_iff_toList_lt] at hlt
      exact absurd hlt (List.not_lt_nil _)

theorem rulesIn_eq (history : List (Registration β)) (m : Mode) :
    rulesIn history m = (history.zipIdx.filter fun e => e.1.mode = m).map fun e =>
      ⟨⟨e.1.pattern, m, .of e.1.pattern⟩, e.2, e.1.body⟩ := by
  rw [rulesIn, allRules, List.filter_map]
  refine List.map_congr_left fun e he => ?_
  have hm : e.1.mode = m := by simpa [Registration.rule] using (List.mem_filter.1 he).2
  rw [Registration.rule, hm]

theorem exists_index_of_perm {α : Type} {l m : List α} (h : l.Perm m) :
    ∃ index : List (Fin m.length), index.Perm (List.finRange m.length) ∧ l = index.map m.get := by
  have h' : l.Perm ((List.finRange m.length).map m.get) := by rwa [List.map_get_finRange]
  obtain ⟨index, hl, hi⟩ := (congrFun₂ (List.eq_map_comp_perm m.get) l _).mpr h'
  exact ⟨index, hi, hl⟩

theorem rules_of_notMem {g : Registry β} {m : Mode} (h : m ∉ g.modes) :
    g.rules m = [] ∧ g.ranked m = [] := by
  have none : g.shelves.lookup m = none := by
    rw [List.lookup_eq_none_iff]
    intro e he
    rw [bne_iff_ne]
    rintro rfl
    exact h (List.mem_map_of_mem he)
  have hs : g.shelf m = .empty := by rw [shelf, none, Option.getD_none]
  exact ⟨by rw [rules, hs]; rfl, by rw [ranked, hs]; rfl⟩

/-- The rules of a mode are those of its registrations, in their order and numbered by the
registrations of all modes before them; the ranks take each place once, the more specific rule and
of equals the later one first. A mode that is not listed has no rules, and each mode that has some
is listed once, by name, after the default mode. -/
theorem ofList_shows (history : List (Registration β)) :
    (∀ m, (ofList history).rules m = (history.zipIdx.filter fun e => e.1.mode = m).map fun e =>
        ⟨⟨e.1.pattern, m, .of e.1.pattern⟩, e.2, e.1.body⟩) ∧
    (∀ m, ∃ index : List (Fin ((ofList history).rules m).length),
        index.Perm (List.finRange _) ∧
        (ofList history).ranked m = index.map ((ofList history).rules m).get ∧
        ((ofList history).ranked m).Pairwise fun a b =>
          b.specificity < a.specificity ∨
            a.specificity = b.specificity ∧ b.sequence < a.sequence) ∧
    (∀ m, m ∉ (ofList history).modes →
        (ofList history).rules m = [] ∧ (ofList history).ranked m = []) ∧
    (ofList history).size = history.length ∧
    ∃ named, (ofList history).modes = .default :: named ∧
      named.Pairwise (fun m n => m.name < n.name) ∧
      ∀ m, m ∈ named ↔ m ≠ .default ∧ ∃ r ∈ history, r.mode = m := by
  have records := records_ofList history
  refine ⟨fun m => ?_, fun m => ?_, fun m => rules_of_notMem, size_ofList history, ?_⟩
  · rw [records.rules, rulesIn_eq]
  · have hp := records.perm m
    rw [← records.rules] at hp
    obtain ⟨index, hi, hr⟩ := exists_index_of_perm hp
    exact ⟨index, hi, hr, records.decreasing m⟩
  · obtain ⟨named, hn⟩ := modes_eq_cons history
    have sorted : ((ofList history).modes).Pairwise fun m n => m.name < n.name :=
      List.pairwise_map.2 records.sorted
    rw [hn, List.pairwise_cons] at sorted
    refine ⟨named, hn, sorted.2, fun m => ?_⟩
    have hm : m ∈ (ofList history).modes ↔ _ := mem_modes_ofList
    rw [hn, List.mem_cons] at hm
    constructor
    · intro h
      have hne : m ≠ .default := by
        rintro rfl
        exact lt_irrefl _ (sorted.1 _ h)
      exact ⟨hne, (hm.1 (.inr h)).resolve_left hne⟩
    · rintro ⟨hne, h⟩
      exact (hm.2 (.inr h)).resolve_left hne

end Stylesheet.Registry
