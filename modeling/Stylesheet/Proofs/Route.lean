import Stylesheet.Document.Node
import Stylesheet.Proofs.Key
import Stylesheet.Proofs.Turns

/-! Keys in full. The key of a visit tells the calls on the way to it, each by its number in the
body that makes it or as a call for the children, and the nearest identifier on this way; it tells
nothing else, and equal keys tell the same way. -/

namespace Stylesheet

variable {ν : Type}

def percentCode (c : Char) : List Char :=
  '%' :: (Nat.toDigits 16 c.toNat).map Char.toUpper

theorem escapeMode_eq (c : Char) :
    escapeMode c = if c ∈ ['%', '/', '[', ']'] then percentCode c else [c] := by
  unfold escapeMode
  split
  next => decide
  next => decide
  next => decide
  next => decide
  next h₁ h₂ h₃ h₄ =>
    rw [if_neg]
    simp only [List.mem_cons, List.not_mem_nil, or_false, not_or]
    exact ⟨h₁, h₂, h₃, h₄⟩

def nearest (identifiers : List (Option String)) : Option String :=
  identifiers.reverse.findSome? id

theorem nearest_concat (identifiers : List (Option String)) (i : Option String) :
    nearest (identifiers ++ [i]) = i.orElse fun _ => nearest identifiers := by
  rw [nearest, List.reverse_append]
  cases i <;> rfl

namespace Key

/-- The key at the end of a route, where each hop comes with the identifier of the node that it
leads to. -/
def along (identifier : Option String) (route : List (Hop × Option String)) : Key :=
  route.foldl (fun k h => k.descend h.1 h.2) (.root identifier)

theorem along_concat (identifier : Option String) (route : List (Hop × Option String))
    (h : Hop × Option String) :
    along identifier (route ++ [h]) = (along identifier route).descend h.1 h.2 := by
  rw [along, List.foldl_append]
  rfl

theorem along_eq (identifier : Option String) (route : List (Hop × Option String)) :
    along identifier route
      = ⟨route.map Prod.fst, nearest (identifier :: route.map Prod.snd)⟩ := by
  induction route using List.reverseRecOn with
  | nil => cases identifier <;> rfl
  | append_singleton route h ih =>
    rw [along_concat, ih, descend, List.map_append, List.map_append, ← List.cons_append,
      List.map_singleton, List.map_singleton, nearest_concat]

end Key

namespace Link

/-- A call for the children in the default mode, and the first such call of the body. -/
def isChild (l : Link ν) : Bool := l.request.plain && !l.before.any Request.plain

def hop (l : Link ν) : Hop :=
  if l.isChild then .child l.position else .visit l.before.length l.position l.request.mode

/-- How the call stands in a path: the position alone, or after the number of the call and before
the mode, if it is named. -/
def segment (l : Link ν) : String :=
  if l.isChild then "/" ++ toString l.position
  else "/" ++ toString l.before.length ++ "." ++ toString l.position ++
    if l.request.mode.isDefault then ""
    else "@" ++ String.ofList (l.request.mode.name.toList.flatMap fun c =>
      if c ∈ ['%', '/', '[', ']'] then percentCode c else [c])

theorem toList_segment (l : Link ν) : l.segment.toList = l.hop.text := by
  rw [segment, hop]
  split
  · simp [Hop.text]
  · simp only [← escapeMode_eq]
    split <;> simp_all [Hop.text]

theorem hop_eq (l : Link ν) : l.request.hop (Sites.fresh.after l.before) l.position = l.hop := by
  simp only [Request.hop, Sites.after, Sites.fresh, Bool.false_or, Nat.zero_add]
  exact ite_apply ..

end Link

variable [TreeNode ν]

/-- The identifier of the last node on a way from the root that carries one. -/
def wayScope (root : ν) (way : List (Link ν)) : Option String :=
  nearest ((root :: way.map (·.node)).map TreeNode.identifier)

def wayKey (root : ν) (way : List (Link ν)) : String :=
  let path := "#" ++ String.join (way.map Link.segment)
  match wayScope root way with
  | none => path
  | some identifier => identifier ++ "[" ++ path ++ "]"

theorem wayKey_eq (root : ν) (way : List (Link ν)) :
    wayKey root way = Key.text ⟨way.map Link.hop, wayScope root way⟩ := by
  apply String.toList_injective
  cases h : wayScope root way <;>
    simp [wayKey, h, Key.text, Key.chars, Key.path, List.flatMap_map, Link.toList_segment]

section

variable {enter : Visit ν → Run ν (Option String)} {ev : Evaluator ν} {v : Visit ν}

theorem Visit.getElem?_entered {hop : Nat → Hop} {mode : Mode} {start position : Nat} {ns : List ν}
    {u : Visit ν} (h : (v.entered enter hop mode start ns)[position]? = some u) :
    ∃ n, ns[position]? = some n ∧ u = v.descend (hop (start + position)) mode n := by
  induction ns generalizing start position with
  | nil => cases h
  | cons n ns ih =>
    rw [entered] at h
    cases position with
    | zero =>
      have first : v.descend (hop start) mode n = u := by
        split at h <;> exact Option.some.inj h
      exact ⟨n, rfl, first.symm⟩
    | succ position =>
      split at h
      · rw [show start + (position + 1) = start + 1 + position by omega]
        exact ih h
      · cases h

/-- What leads from a visit to a visit that its body enters. -/
structure Link.Leads (ev : Evaluator ν) (requests : List Request) (v : Visit ν) (l : Link ν)
    (u : Visit ν) : Prop where
  called : l.before ++ [l.request] <+: requests
  selected : ∃ ns, (l.request.select ev v).result = .ok ns ∧ ns[l.position]? = some l.node
  node : u.node = l.node
  mode : u.mode = l.request.mode
  depth : u.depth = v.depth + 1

theorem Body.leads_of_links {b : Body} {l : Link ν} {u : Visit ν}
    (h : (l, u) ∈ b.links enter ev v .fresh) :
    l.Leads ev ((b.requests enter ev v .fresh).map Prod.fst) v u ∧
      u.key = v.key.descend l.hop (TreeNode.identifier l.node) := by
  obtain ⟨⟨⟨r, t⟩, number⟩, hr, hl⟩ := List.mem_flatMap.1 h
  obtain ⟨⟨u, position⟩, hu, hl⟩ := List.mem_map.1 hl
  cases hl
  replace hr := List.mem_zipIdx_iff_getElem?.1 hr
  replace hu := List.mem_zipIdx_iff_getElem?.1 hu
  dsimp only at hr hu
  have sites := (b.counted_requests enter ev v .fresh).sites_eq hr
  rw [Request.entered] at hu
  split at hu
  next ns selected =>
    obtain ⟨n, hn, hu⟩ := Visit.getElem?_entered hu
    rw [Nat.zero_add] at hu
    subst hu
    have called : (((b.requests enter ev v .fresh).take number).map Prod.fst) ++ [r]
        = ((b.requests enter ev v .fresh).take (number + 1)).map Prod.fst := by
      rw [List.take_add_one, hr, List.map_append]
      rfl
    refine ⟨⟨called ▸ (List.take_prefix ..).map _, ⟨ns, selected, hn⟩, rfl, rfl, rfl⟩, ?_⟩
    rw [← Link.hop_eq, ← sites, Visit.descend]
  next => cases hu

end

namespace Registry

/-- What holds at the start of a run and from each turn to those that its body enters holds on every
turn. -/
theorem turns_induction {g : Registry Body} {ev : Evaluator ν} {policy : UnmatchedPolicy}
    {limit : Nat} {v : Visit ν} {way : List (Link ν)} {motive : Turn ν → Prop}
    (start : motive ⟨limit, v, way⟩)
    (step : ∀ w ∈ g.turns ev policy limit v way, motive w → ∀ levels l u, w.levels = levels + 1 →
      (l, u) ∈ (g.bodyAt ev w.visit).links (g.visit ev policy levels) ev w.visit .fresh →
      motive ⟨levels, u, w.way ++ [l]⟩) :
    ∀ t ∈ g.turns ev policy limit v way, motive t := by
  induction limit generalizing v way with
  | zero => exact List.forall_mem_singleton.2 start
  | succ limit ih =>
    rw [turns] at step ⊢
    refine List.forall_mem_cons.2 ⟨start, fun t ht => ?_⟩
    obtain ⟨⟨l, u⟩, hl, ht⟩ := List.mem_flatMap.1 ht
    have first := step _ List.mem_cons_self start limit l u rfl hl
    have later (w : Turn ν) (hw : w ∈ g.turns ev policy limit u (way ++ [l])) :=
      step w (List.mem_cons_of_mem _ (List.mem_flatMap.2 ⟨(l, u), hl, hw⟩))
    exact ih first later t ht

variable (g : Registry Body) (ev : Evaluator ν) (root : ν) (options : Options) (limit : Nat)

theorem key_eq_of_mem_turns :
    ∀ t ∈ g.turns ev options.unmatched limit (.root root options.mode) [],
      t.visit.key = ⟨t.way.map Link.hop, wayScope root t.way⟩ := by
  refine turns_induction ?_ fun w _ hw levels l u _ hl => ?_
  · cases h : TreeNode.identifier root <;> simp [Visit.root, Key.root, wayScope, nearest, h]
  · rw [(Body.leads_of_links hl).2, hw, Key.descend, wayScope, wayScope]
    simp only [List.map_append, List.map_singleton, ← List.cons_append, nearest_concat]

/-- Every key is the text of the way to its visit: the visits of a run are turns, and to each turn
but the first a call leads from another one. -/
theorem key_of_turn :
    let turns := g.turns ev options.unmatched limit (.root root options.mode) []
    (g.run ev root options limit).visits = (turns.filter (g.answers ev)).map (·.visit) ∧
      ∀ t ∈ turns, t.visit.key.text = wayKey root t.way ∧
        (t = ⟨limit, .root root options.mode, []⟩ ∨
          ∃ w ∈ turns, ∃ l, t.way = w.way ++ [l] ∧ w.levels = t.levels + 1 ∧
            l.Leads ev (g.requestsAt ev options.unmatched w) w.visit t.visit) := by
  intro turns
  refine ⟨g.visits_eq .., fun t ht => ⟨?_, ?_⟩⟩
  · rw [wayKey_eq, ← g.key_eq_of_mem_turns ev root options limit t ht]
  · revert t
    refine turns_induction (.inl rfl) fun w hw _ levels l u hlevels hl => .inr ?_
    refine ⟨w, hw, l, rfl, hlevels, ?_⟩
    rw [requestsAt, hlevels]
    exact (Body.leads_of_links hl).1

example :
    let d := Document.empty.append Document.empty.root (.element "list" [("id", "x")])
    let d := d.append ⟨1, by decide⟩ (.text "y")
    let top : Registration Body := ⟨.default, "/", .traverse none .keep (.join ",")⟩
    let list : Registration Body := ⟨.default, "list",
      .seq (.attempt (.traverse (some "?") .keep .count)) (.traverse none (.enter ⟨"a/b"⟩) .count)⟩
    let ev : Evaluator d.Node := .ofTables
      [("/", .nodes [d.root]), ("list", .nodes [⟨1, by decide⟩])] [("?", .fail "no step")]
    ((ofList [top, list]).turns ev .ignore 3 (.root d.root .default) []).map
      (fun t => wayKey d.root t.way) = ["#", "x[#/0]", "x[#/0/1.0@a%2Fb]"] := by
  decide +kernel

end Registry

/-- A key tells the route: whatever the hops and the identifiers along them, equal keys mean the
same hops and the same scope, and so they do in different runs, even over different trees. -/
theorem Key.same_route_iff :
    (∀ (i j : Option String) (route route' : List (Hop × Option String)),
      (along i route).text = (along j route').text
        ↔ route.map Prod.fst = route'.map Prod.fst
          ∧ nearest (i :: route.map Prod.snd) = nearest (j :: route'.map Prod.snd)) ∧
    ∀ {ν ν' : Type} [TreeNode ν] [TreeNode ν'] (g g' : Registry Body) (ev : Evaluator ν)
      (ev' : Evaluator ν') (root : ν) (root' : ν') (options options' : Options)
      (limit limit' : Nat),
      ∀ t ∈ g.turns ev options.unmatched limit (.root root options.mode) [],
      ∀ t' ∈ g'.turns ev' options'.unmatched limit' (.root root' options'.mode) [],
        t.visit.key.text = t'.visit.key.text
          ↔ t.way.map Link.hop = t'.way.map Link.hop
            ∧ wayScope root t.way = wayScope root' t'.way := by
  refine ⟨fun i j route route' => ?_, fun g g' ev ev' root root' options options' limit limit' t ht
    t' ht' => ?_⟩
  · rw [text_injective.eq_iff, along_eq, along_eq, Key.mk.injEq]
  · rw [text_injective.eq_iff, g.key_eq_of_mem_turns ev root options limit t ht,
      g'.key_eq_of_mem_turns ev' root' options' limit' t' ht', Key.mk.injEq]

end Stylesheet
