import Stylesheet.Proofs.Document.Growth

/-! Attributes as maps in order of insertion. The list of an element holds each name that was ever
set on it, by the first time, with the value that was set last; to set one attribute changes nothing
else. -/

namespace Stylesheet

namespace Attributes

def names (a : Attributes) : List String := a.map Prod.fst

theorem lookup_cons (k name value : String) (a : Attributes) :
    List.lookup k ((name, value) :: a) = if k = name then some value else a.lookup k := by
  rw [List.lookup_cons, beq_eq_decide]
  split <;> simp_all

theorem lookup_set (a : Attributes) (k name value : String) :
    (a.set name value).lookup k = if k = name then some value else a.lookup k := by
  fun_induction set name value a with
  | case1 => exact lookup_cons ..
  | case2 v rest =>
    simp only [lookup_cons]
    split <;> rfl
  | case3 n v rest h ih =>
    simp only [lookup_cons, ih]
    split
    next hk => rw [if_neg (hk ▸ h)]
    next => rfl

theorem names_set (a : Attributes) (name value : String) :
    (a.set name value).names = if name ∈ a.names then a.names else a.names ++ [name] := by
  fun_induction set name value a with
  | case1 => rfl
  | case2 v rest => exact (if_pos List.mem_cons_self).symm
  | case3 n v rest h ih =>
    have cons (s : Attributes) : names ((n, v) :: s) = n :: s.names := rfl
    simp only [cons, ih, List.mem_cons, Ne.symm h, false_or, List.cons_append]
    split <;> rfl

theorem nodup_set {a : Attributes} (h : a.names.Nodup) (name value : String) :
    (a.set name value).names.Nodup := by
  rw [names_set]
  split
  next => exact h
  next hn => exact List.concat_eq_append .. ▸ h.concat hn

theorem filter_set (a : Attributes) (name value : String) :
    (a.set name value).filter (·.1 ≠ name) = a.filter (·.1 ≠ name) := by
  fun_induction set name value a with
  | case1 => simp
  | case2 v rest => simp
  | case3 n v rest h ih => rw [List.filter_cons, List.filter_cons, ih]

theorem mem_iff_lookup {a : Attributes} (h : a.names.Nodup) {k v : String} :
    (k, v) ∈ a ↔ a.lookup k = some v := by
  induction a with
  | nil => simp
  | cons e a ih =>
    obtain ⟨n, w⟩ := e
    obtain ⟨hn, ha⟩ := List.nodup_cons.1 h
    rw [lookup_cons, List.mem_cons, Prod.mk.injEq]
    split
    next hk =>
      have other : (k, v) ∉ a := fun hm => hn (List.mem_map.2 ⟨_, hm, hk⟩)
      rw [Option.some.injEq, or_iff_left other, and_iff_right hk, eq_comm]
    next hk => rw [← ih ha, or_iff_right fun h => hk h.1]

section OfList

variable (log : List (String × String))

theorem ofList_concat (name value : String) :
    ofList (log ++ [(name, value)]) = (ofList log).set name value := by
  rw [ofList, List.foldl_concat]
  rfl

theorem nodup_ofList : (ofList log).names.Nodup := by
  induction log using List.reverseRecOn with
  | nil => exact List.nodup_nil
  | append_singleton log e ih =>
    rw [ofList_concat]
    exact nodup_set ih ..

theorem lookup_ofList (k : String) : (ofList log).lookup k = log.reverse.lookup k := by
  induction log using List.reverseRecOn with
  | nil => rfl
  | append_singleton log e ih =>
    rw [ofList_concat, lookup_set, ih, List.reverse_concat]
    exact (lookup_cons ..).symm

theorem names_ofList : (ofList log).names = (log.map Prod.fst).eraseDups := by
  induction log using List.reverseRecOn with
  | nil => rfl
  | append_singleton log e ih =>
    rw [ofList_concat, names_set, ih, List.map_append, List.eraseDups_append]
    by_cases h : e.1 ∈ log.map Prod.fst
    · rw [if_pos (List.mem_eraseDups.2 h)]
      simp [List.removeAll, h]
    · rw [if_neg (mt List.mem_eraseDups.1 h)]
      simp [List.removeAll, h, List.eraseDups_cons]

end OfList

/-- The value is the last one that the name is set to. -/
def SetLast (log : List (String × String)) (name value : String) : Prop :=
  ∃ before after, log = before ++ (name, value) :: after ∧ name ∉ after.map Prod.fst

theorem setLast_iff (log : List (String × String)) (name value : String) :
    SetLast log name value ↔ log.reverse.lookup name = some value := by
  rw [List.lookup_eq_some_iff]
  constructor
  · rintro ⟨before, after, rfl, h⟩
    refine ⟨after.reverse, before.reverse, by simp, fun e he => bne_iff_ne.2 fun hn => h ?_⟩
    exact List.mem_map.2 ⟨e, List.mem_reverse.1 he, hn.symm⟩
  · rintro ⟨after, before, e, h⟩
    refine ⟨before.reverse, after.reverse, by simpa using congrArg List.reverse e, fun hn => ?_⟩
    obtain ⟨x, hx, rfl⟩ := List.mem_map.1 hn
    exact bne_iff_ne.1 (h x (List.mem_reverse.1 hx)) rfl

end Attributes

namespace Content

variable {c : Content}

def setAll (log : List (String × String)) (c : Content) : Content :=
  log.foldl (fun c e => c.setAttribute e.1 e.2) c

theorem setAll_append (s t : List (String × String)) (c : Content) :
    c.setAll (s ++ t) = (c.setAll s).setAll t :=
  List.foldl_append

theorem setAll_element (log : List (String × String)) (n : String) (a : Attributes) :
    (element n a).setAll log = .element n (log.foldl (fun a e => a.set e.1 e.2) a) := by
  induction log generalizing a with
  | nil => rfl
  | cons e log ih => exact ih _

theorem setAttribute_of_kind (h : c.kind ≠ .element) (name value : String) :
    c.setAttribute name value = c := by
  cases c with
  | element => exact absurd rfl h
  | _ => rfl

theorem setAll_of_kind (h : c.kind ≠ .element) (log : List (String × String)) :
    c.setAll log = c := by
  induction log with
  | nil => rfl
  | cons e log ih =>
    rw [← List.singleton_append, setAll_append]
    exact (congrArg (setAll log) (setAttribute_of_kind h ..)).trans ih

theorem kind_setAttribute (c : Content) (name value : String) :
    (c.setAttribute name value).kind = c.kind := by
  cases c <;> rfl

theorem name?_setAttribute (c : Content) (name value : String) :
    (c.setAttribute name value).name? = c.name? := by
  cases c <;> rfl

theorem value?_setAttribute (c : Content) (name value : String) :
    (c.setAttribute name value).value? = c.value? := by
  cases c <;> rfl

end Content

namespace Document

variable {d : Document}

theorem placementAt_setAttributeAt (rs : Array Record) (n : Nat) (name value : String) (i : Nat) :
    placementAt (setAttributeAt rs n name value) i = if n = i then
      (placementAt rs i).map fun p => { p with content := p.content.setAttribute name value }
    else placementAt rs i := by
  simp only [placementAt, setAttributeAt, Array.getElem?_modify]
  split
  · cases rs[i]? <;> rfl
  · rfl

theorem placementAt_eq_none {i : Nat} (h : d.size ≤ i) : placementAt d.records i = none := by
  rw [placementAt, Array.getElem?_eq_none h, Option.bind_none]

def contentAt (d : Document) (i : Nat) : Option Content :=
  (placementAt d.records i).map (·.content)

theorem contentAt_append (p : d.Node) (c : Content) (i : Nat) :
    (d.append p c).contentAt i = if i = d.size then some c else d.contentAt i := by
  rw [contentAt, append, placementAt_appendRecord, apply_ite (Option.map _)]
  rfl

theorem contentAt_setAttribute (n : d.Node) (name value : String) (i : Nat) :
    (d.setAttribute n name value).contentAt i = if n.val = i then
      (d.contentAt i).map (Content.setAttribute name value) else d.contentAt i := by
  rw [contentAt, setAttribute, placementAt_setAttributeAt]
  split
  · rw [contentAt, Option.map_map, Option.map_map]
    rfl
  · rfl

theorem contentAt_eq_none {i : Nat} (h : d.size ≤ i) : d.contentAt i = none := by
  rw [contentAt, placementAt_eq_none h, Option.map_none]

theorem Node.content?_eq (n : d.Node) : n.content? = d.contentAt n.val := by
  rw [content?, contentAt, placementAt_eq]

/-! ### Commands -/

inductive Command
  | element (parent : Nat) (name : String) (attributes : List (String × String))
  | text (parent : Nat) (value : String)
  | comment (parent : Nat) (value : String)
  | instruction (parent : Nat) (target data : String)
  | setAttribute (node : Nat) (name value : String)
  deriving DecidableEq

namespace Command

def edit : Command → Edit
  | element p name entries => .add p (.element name (.ofList entries))
  | text p value => .add p (.text value)
  | comment p value => .add p (.comment value)
  | instruction p target data => .add p (.instruction target data)
  | setAttribute n name value => .setAttribute n name value

/-- What the call sets on the node with the number, if there are so many nodes before. -/
def settings (size i : Nat) : Command → List (String × String)
  | element _ _ entries => if i = size then entries else []
  | setAttribute n name value => if i = n then [(name, value)] else []
  | _ => []

end Command

def settings (i : Nat) : Nat → List Command → List (String × String)
  | _, [] => []
  | size, c :: cs => c.settings size i ++ settings i (size + c.edit.adds.toNat) cs

theorem edit?_eq_some {d' : Document} {e : Edit} (h : d.edit? e = some d') :
    e.target < d.size ∧ d'.size = d.size + e.adds.toNat := by
  have there : e.target < d.size := by
    by_contra hn
    have none : d.node? e.target = none := dif_neg hn
    cases e <;> simp_all [edit?, Edit.target]
  obtain ⟨d₁, h₁, size⟩ := edit?_of_lt there
  rw [h] at h₁
  cases h₁
  exact ⟨there, size⟩

section Calls

variable {d' : Document} {i : Nat} {x : Content}

/-- The content comes from what the node was before, or from a new node without attributes. -/
def Comes (d : Document) (i : Nat) (log : List (String × String)) (x : Content) : Prop :=
  ∃ b : Content, (d.contentAt i = some b ∨ d.size ≤ i ∧ b.attributes = []) ∧ x = b.setAll log

theorem comes_append {p : d.Node} {b : Content} (hb : b.attributes = [])
    (log : List (String × String)) (hx : (d.append p (b.setAll log)).contentAt i = some x) :
    d.Comes i (if i = d.size then log else []) x := by
  rw [contentAt_append] at hx
  split at hx
  next hi =>
    cases hx
    exact ⟨b, .inr ⟨Nat.le_of_eq hi.symm, hb⟩, by rw [if_pos hi]⟩
  next hi => exact ⟨x, .inl hx, by rw [if_neg hi]; rfl⟩

theorem comes_leaf {p : Nat} {b : Content} (hb : b.attributes = [])
    (h : d.edit? (.add p b) = some d') (hx : d'.contentAt i = some x) : d.Comes i [] x := by
  obtain ⟨p, -, rfl⟩ := Option.map_eq_some_iff.1 h
  have := comes_append hb [] hx
  rwa [ite_self] at this

theorem comes_edit {c : Command} (h : d.edit? c.edit = some d') (hx : d'.contentAt i = some x) :
    d.Comes i (c.settings d.size i) x := by
  cases c with
  | element p name entries =>
    obtain ⟨p, -, rfl⟩ := Option.map_eq_some_iff.1 h
    have set : Content.element name (.ofList entries) = (Content.element name []).setAll entries :=
      (Content.setAll_element ..).symm
    exact comes_append rfl entries (set ▸ hx)
  | text p value => exact comes_leaf rfl h hx
  | comment p value => exact comes_leaf rfl h hx
  | instruction p target data => exact comes_leaf rfl h hx
  | setAttribute n name value =>
    obtain ⟨n, hn, rfl⟩ := Option.map_eq_some_iff.1 h
    cases Node.node?_eq_some.1 hn
    rw [contentAt_setAttribute] at hx
    split at hx
    next hi =>
      obtain ⟨b, hb, rfl⟩ := Option.map_eq_some_iff.1 hx
      exact ⟨b, .inl hb, by rw [Command.settings, if_pos hi.symm]; rfl⟩
    next hi => exact ⟨x, .inl hx, by rw [Command.settings, if_neg (Ne.symm hi)]; rfl⟩

theorem Command.settings_eq_nil {c : Command} (h : d.edit? c.edit = some d') (hi : d'.size ≤ i) :
    c.settings d.size i = [] := by
  obtain ⟨there, size⟩ := edit?_eq_some h
  rw [size] at hi
  cases c with
  | element p name entries => exact if_neg (Nat.ne_of_gt hi)
  | setAttribute n name value => exact if_neg (Nat.ne_of_gt (Nat.lt_of_lt_of_le there hi))
  | _ => rfl

theorem comes_calls {cs : List Command} (h : (cs.map Command.edit).foldlM edit? d = some d')
    (hx : d'.contentAt i = some x) : d.Comes i (settings i d.size cs) x := by
  induction cs generalizing d with
  | nil =>
    cases h
    exact ⟨x, .inl hx, rfl⟩
  | cons c cs ih =>
    rw [List.map_cons, List.foldlM_cons] at h
    obtain ⟨d₁, h₁, h⟩ := Option.bind_eq_some_iff.1 h
    obtain ⟨b, hb, rfl⟩ := ih h
    rw [settings, ← (edit?_eq_some h₁).2]
    rcases hb with hb | ⟨hi, hb⟩
    · obtain ⟨b, before, rfl⟩ := comes_edit h₁ hb
      exact ⟨b, before, (Content.setAll_append ..).symm⟩
    · have later := Nat.le_trans (Nat.le_add_right ..) ((edit?_eq_some h₁).2 ▸ hi)
      exact ⟨b, .inr ⟨later, hb⟩, by rw [Command.settings_eq_nil h₁ hi, List.nil_append]⟩

end Calls

theorem contentAt_empty (i : Nat) : empty.contentAt i = none := by
  cases i with
  | zero => rfl
  | succ i => exact contentAt_eq_none (Nat.succ_le_succ (Nat.zero_le i))

theorem Node.kind_eq_element {n : d.Node} (h : n.kind = .element) :
    ∃ name a, n.content? = some (.element name a) := by
  rw [kind] at h
  cases hc : n.content? with
  | none => rw [hc] at h; cases h
  | some c =>
    rw [hc] at h
    cases c with
    | element name a => exact ⟨name, a, rfl⟩
    | _ => cases h

theorem Node.attributes_of_kind {n : d.Node} (h : n.kind ≠ .element) : n.attributes = [] := by
  rw [kind] at h
  rw [attributes]
  cases hc : n.content? with
  | none => rfl
  | some c =>
    rw [hc] at h
    cases c with
    | element name a => exact absurd rfl h
    | _ => rfl

theorem attributes_of_calls {cs : List Command} (h : build? (cs.map Command.edit) = some d)
    {n : d.Node} (hn : n.kind = .element) : n.attributes = .ofList (settings n.val 1 cs) := by
  obtain ⟨name, a, hc⟩ := Node.kind_eq_element hn
  obtain ⟨b, hb | ⟨-, hb⟩, hx⟩ := comes_calls h (n.content?_eq ▸ hc)
  · cases (contentAt_empty n.val).symm.trans hb
  · have kind : b.kind = .element := by
      by_contra hk
      rw [Content.setAll_of_kind hk] at hx
      exact hk (hx ▸ rfl)
    cases b with
    | element tag b =>
      cases hb
      rw [Content.setAll_element] at hx
      rw [Node.attributes, hc, hx]
      rfl
    | _ => cases kind

/-- The attributes are those of a log: each name by the first time it is set, with the value it is
set to last. -/
structure Node.Remembers (n : d.Node) (log : List (String × String)) : Prop where
  nodup : n.attributes.names.Nodup
  names_eq : n.attributes.names = (log.map Prod.fst).eraseDups
  mem_iff (name value : String) : (name, value) ∈ n.attributes ↔ Attributes.SetLast log name value
  attribute?_eq_some (name value : String) :
    n.attribute? name = some value ↔ Attributes.SetLast log name value
  attribute?_eq_none (name : String) : n.attribute? name = none ↔ name ∉ log.map Prod.fst

theorem Node.remembers {n : d.Node} {log : List (String × String)}
    (h : n.attributes = .ofList log) : n.Remembers log where
  nodup := h ▸ Attributes.nodup_ofList log
  names_eq := h ▸ Attributes.names_ofList log
  mem_iff name value := by
    rw [h, Attributes.mem_iff_lookup (Attributes.nodup_ofList log), Attributes.lookup_ofList,
      Attributes.setLast_iff]
  attribute?_eq_some name value := by
    rw [attribute?, h, Attributes.lookup_ofList, Attributes.setLast_iff]
  attribute?_eq_none name := by
    rw [attribute?, h, Attributes.lookup_ofList, List.lookup_eq_none_iff, List.mem_map, not_exists]
    refine forall_congr' fun e => ?_
    rw [List.mem_reverse, bne_iff_ne, not_and, ne_comm]

/-! ### One more attribute -/

namespace Node

def after (m n : d.Node) (name value : String) : (d.setAttribute n name value).Node :=
  ⟨m.val, by rw [size_setAttribute]; exact m.isLt⟩

theorem content?_after (m n : d.Node) (name value : String) : (m.after n name value).content?
    = if n = m then m.content?.map (Content.setAttribute name value) else m.content? := by
  rw [content?_eq, contentAt_setAttribute, m.content?_eq]
  exact if_congr Fin.ext_iff.symm rfl rfl

theorem parent?_after (m n : d.Node) (name value : String) :
    (m.after n name value).parent? = m.parent?.map (after · n name value) := by
  have stored (p : d.Node) : (m.after n name value).parent? = some (p.after n name value)
      ↔ m.parent? = some p := by
    rw [parent?_eq_some, parent?_eq_some]
    exact iff_of_eq (congrArg (· = some p.val) (parentAt_setAttributeAt ..))
  ext p
  rw [Option.map_eq_some_iff]
  constructor
  · intro hp
    let q : d.Node := ⟨p.val, size_setAttribute n name value ▸ p.isLt⟩
    exact ⟨q, (stored q).1 hp, rfl⟩
  · rintro ⟨q, hq, rfl⟩
    exact (stored q).2 hq

theorem children_after (m n : d.Node) (name value : String) :
    (m.after n name value).children = m.children.map (after · n name value) := by
  have listed {d : Document} (m : d.Node) {i : Nat} (hi : m.val = i) : m.children.map Fin.val
      = (List.range d.size).filter fun j => parentAt d.records j = some i := by
    cases hi
    exact m.children_stored.symm.trans
      (d.linked.children_eq m.val m.record (Array.getElem?_eq_getElem m.isLt))
  refine List.map_injective_iff.2 Fin.val_injective ?_
  calc (m.after n name value).children.map Fin.val
      = (List.range (d.setAttribute n name value).size).filter fun j =>
          parentAt (d.setAttribute n name value).records j = some m.val := listed _ rfl
    _ = (List.range d.size).filter fun j => parentAt d.records j = some m.val := by
        rw [size_setAttribute]
        refine List.filter_congr fun j _ => ?_
        rw [setAttribute, parentAt_setAttributeAt]
    _ = m.children.map Fin.val := (listed m rfl).symm
    _ = (m.children.map (after · n name value)).map Fin.val := by rw [List.map_map]; rfl

theorem content?_after_congr {α : Type} {f : Option Content → α} {name value : String}
    (hf : ∀ c : Content, f (some (c.setAttribute name value)) = f (some c)) (m n : d.Node) :
    f (m.after n name value).content? = f m.content? := by
  rw [content?_after]
  split
  next => cases m.content? with
    | none => rfl
    | some c => exact hf c
  next => rfl

theorem attributes_after {n : d.Node} (h : n.kind = .element) (name value : String) :
    (n.after n name value).attributes = n.attributes.set name value := by
  obtain ⟨tag, a, hc⟩ := kind_eq_element h
  rw [attributes, content?_after, if_pos rfl, attributes, hc]
  rfl

theorem setAttribute_eq_self {n : d.Node} (h : n.kind ≠ .element) (name value : String) :
    d.setAttribute n name value = d := by
  have kept : n.record.setAttribute name value = n.record := by
    cases hp : n.record.placement with
    | none => rw [Record.setAttribute, hp, Option.map_none, ← hp]
    | some p =>
      have hc : p.content.kind ≠ .element := by
        rwa [kind, content?, hp] at h
      rw [Record.setAttribute, hp, Option.map_some, Content.setAttribute_of_kind hc, ← hp]
  have records : setAttributeAt d.records n.val name value = d.records := by
    refine Array.ext_getElem? fun i => ?_
    rw [setAttributeAt, Array.getElem?_modify]
    split
    next hi =>
      cases hi
      rw [Array.getElem?_eq_getElem n.isLt]
      exact congrArg some kept
    next => rfl
  obtain ⟨rs, linked⟩ := d
  rw [setAttribute, mk.injEq]
  exact records

end Node

/-- To set an attribute changes it and nothing else, and nothing at all unless the node is an
element. -/
structure SetsOne (n : d.Node) (name value : String) : Prop where
  size : (d.setAttribute n name value).size = d.size
  kind (m : d.Node) : (m.after n name value).kind = m.kind
  name? (m : d.Node) : (m.after n name value).name? = m.name?
  value? (m : d.Node) : (m.after n name value).value? = m.value?
  parent? (m : d.Node) :
    (m.after n name value).parent? = m.parent?.map (Node.after · n name value)
  children (m : d.Node) :
    (m.after n name value).children = m.children.map (Node.after · n name value)
  attributes (m : d.Node) : m ≠ n → (m.after n name value).attributes = m.attributes
  others : (n.after n name value).attributes.filter (·.1 ≠ name) = n.attributes.filter (·.1 ≠ name)
  names : n.kind = .element → (n.after n name value).attributes.names
    = if name ∈ n.attributes.names then n.attributes.names else n.attributes.names ++ [name]
  attribute? : n.kind = .element → (n.after n name value).attribute? name = some value
  ignored : n.kind ≠ .element → d.setAttribute n name value = d

theorem setsOne (n : d.Node) (name value : String) : SetsOne n name value where
  size := size_setAttribute n name value
  kind m := Node.content?_after_congr (f := fun c => (c.map Content.kind).getD .document)
    (fun c => c.kind_setAttribute name value) m n
  name? m := Node.content?_after_congr (f := (·.bind Content.name?))
    (fun c => c.name?_setAttribute name value) m n
  value? m := Node.content?_after_congr (f := (·.bind Content.value?))
    (fun c => c.value?_setAttribute name value) m n
  parent? m := m.parent?_after n name value
  children m := m.children_after n name value
  attributes m h := by
    rw [Node.attributes, Node.content?_after, if_neg h.symm, Node.attributes]
  others := by
    by_cases h : n.kind = .element
    · rw [Node.attributes_after h, Attributes.filter_set]
    · have kind : (n.after n name value).kind = n.kind :=
        Node.content?_after_congr (f := fun c => (c.map Content.kind).getD .document)
          (fun c => c.kind_setAttribute name value) n n
      rw [Node.attributes_of_kind h, Node.attributes_of_kind (kind ▸ h)]
  names h := by rw [Node.attributes_after h, Attributes.names_set]
  attribute? h := by
    rw [Node.attribute?, Node.attributes_after h, Attributes.lookup_set, if_pos rfl]
  ignored h := Node.setAttribute_eq_self h name value

/-- Whatever calls are made, an element has the attributes that were set on it, by the first time
and with the last value, and other nodes have none. The next one that is set changes nothing
else. -/
theorem attributes_in_order (cs : List Command)
    (h : Edit.allThere 1 (cs.map Command.edit) = true) :
    ∃ d, build? (cs.map Command.edit) = some d ∧
      (∀ n : d.Node, n.kind = .element → n.Remembers (settings n.val 1 cs)) ∧
      (∀ n : d.Node, n.kind ≠ .element → n.attributes = [] ∧ ∀ name, n.attribute? name = none) ∧
      ∀ (n : d.Node) (name value : String),
        d.edit? (.setAttribute n.val name value) = some (d.setAttribute n name value) ∧
          SetsOne n name value := by
  obtain ⟨d, hd, -⟩ := foldlM_edit? (d := empty) h
  refine ⟨d, hd, fun n hn => n.remembers (attributes_of_calls hd hn), fun n hn => ?_,
    fun n name value => ⟨?_, setsOne n name value⟩⟩
  · have none := Node.attributes_of_kind hn
    exact ⟨none, fun name => by rw [Node.attribute?, none, List.lookup_nil]⟩
  · rw [edit?, Node.node?_eq_some.2 rfl, Option.map_some]

/-- A name that is repeated from the start, a text that takes no attribute, and another element set
in between. -/
theorem attributes_in_order_interleaved :
    let cs : List Command := [.element 0 "a" [("x", "1"), ("y", "2"), ("x", "3")], .text 1 "t",
      .setAttribute 2 "x" "4", .element 2 "b" [], .setAttribute 3 "y" "5",
      .setAttribute 1 "y" "6", .setAttribute 1 "z" "7"]
    Edit.allThere 1 (cs.map Command.edit) = true ∧ ∃ d, build? (cs.map Command.edit) = some d ∧
      settings 1 1 cs = [("x", "1"), ("y", "2"), ("x", "3"), ("y", "6"), ("z", "7")] ∧
      settings 2 1 cs = [("x", "4")] ∧ settings 3 1 cs = [("y", "5")] ∧
      (∀ n : d.Node, n.kind = .element → n.Remembers (settings n.val 1 cs)) ∧
      ∀ n : d.Node, n.kind ≠ .element → n.attributes = [] := by
  intro cs
  have there : Edit.allThere 1 (cs.map Command.edit) = true := by decide
  obtain ⟨d, hd, element, other, -⟩ := attributes_in_order cs there
  exact ⟨there, d, hd, by decide, by decide, by decide, element, fun n hn => (other n hn).1⟩

end Document

end Stylesheet
