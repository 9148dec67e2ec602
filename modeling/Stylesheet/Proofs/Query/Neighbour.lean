import Stylesheet.Proofs.Query.Layout
import Stylesheet.Proofs.Query.Parser

/-! Which tokens stand side by side in a phrase: none that need blanks between them, and before a
parenthesis only the names that take one. -/

namespace Stylesheet.Query

/-- The names that a parenthesis may follow. -/
def callers : List String :=
  ["node", "text", "comment", "document-node", "element", "processing-instruction", "not"]

structure Token.Adjoins (t u : Token) : Prop where
  apart : t.Apart u
  caller : u = .symbol .leftParen → ∃ n ∈ callers, t = .name n

def Part.After (t : Token) : Part → Prop
  | .query | .path | .predicate => ∃ y ∈ [Symbol.pipe, .leftBracket, .leftParen], t = .symbol y
  | .steps | .step =>
    ∃ y ∈ [Symbol.pipe, .leftBracket, .leftParen, .slash, .doubleSlash, .doubleColon], t = .symbol y
  | .predicates => t ≠ .symbol .slash

abbrev Adjoining : List Token → Prop := List.IsChain Token.Adjoins

section Adjoins

variable {t u : Token} {ts rest : List Token}

theorem Adjoining.cons (h : t.Adjoins u) (hs : Adjoining (u :: ts)) : Adjoining (t :: u :: ts) :=
  List.isChain_cons_cons.2 ⟨h, hs⟩

theorem Token.adjoins_symbol {y : Symbol} (ht : t ≠ .symbol .slash)
    (hy : y ∉ [Symbol.dot, .doubleDot, .leftParen]) : t.Adjoins (.symbol y) where
  apart := by
    simp only [List.mem_cons, List.not_mem_nil, or_false, not_or] at hy
    cases t with
    | symbol z => cases z <;> simp_all [Token.Apart]
    | literal v => trivial
    | number n => trivial
    | name n => exact ⟨hy.1, hy.2.1⟩
  caller := by
    rintro ⟨⟩
    exact absurd hy (by decide)

theorem Token.name_adjoins {n : String} (hn : n ∈ callers) :
    (Token.name n).Adjoins (.symbol .leftParen) where
  apart := ⟨nofun, nofun⟩
  caller _ := ⟨n, hn, rfl⟩

theorem Part.After.adjoins_step (h : Part.After t .step) {k : List Token}
    (hu : opensStep (u :: k) = true) : t.Adjoins u := by
  obtain ⟨y, hy, rfl⟩ := h
  constructor
  · cases u with
    | symbol z => cases y <;> cases z <;> simp_all [Token.Apart, opensStep]
    | _ => cases y <;> trivial
  · rintro rfl
    cases hu

theorem Part.After.adjoins (h : Part.After t .path) (hu : u ≠ .symbol .leftParen) :
    t.Adjoins u := by
  obtain ⟨y, hy, rfl⟩ := h
  constructor
  · cases y <;> simp_all [Token.Apart]
  · exact fun e => absurd e hu

theorem Adjoining.of_ends {k : Part} (ht : ∀ y ∈ k.followers, t.Adjoins (.symbol y))
    (h : k.Ends rest) (hs : Adjoining rest) : Adjoining (t :: rest) := by
  cases rest with
  | nil => exact .singleton t
  | cons u us =>
    obtain ⟨y, hy, rfl⟩ := h u us rfl
    exact .cons (ht y hy) hs

theorem Token.adjoins_follower {k : Part} (ht : t ≠ .symbol .slash) :
    ∀ y ∈ k.followers, t.Adjoins (.symbol y) := by
  intro y hy
  apply Token.adjoins_symbol ht
  cases k <;> cases y <;> first | decide | exact absurd hy (by decide)

end Adjoins

namespace TestPhrase

theorem adjoining_call {rest : List Token} {kind : String} (hk : kind ∈ callers) (a : Argument)
    (h : Adjoining (.symbol .rightParen :: rest)) : Adjoining (call kind a ++ rest) := by
  have hargument : Adjoining (.symbol .leftParen :: (a.tokens ++ .symbol .rightParen :: rest)) := by
    have hclose {t : Token} (ht : t ≠ .symbol .slash) :
        Adjoining (t :: .symbol .rightParen :: rest) :=
      .cons (Token.adjoins_symbol ht (by decide)) h
    cases a with
    | nothing => exact hclose nofun
    | _ => exact .cons ⟨trivial, nofun⟩ (hclose nofun)
  rw [call, List.cons_append, List.cons_append, List.append_assoc]
  exact .cons (Token.name_adjoins hk) hargument

theorem adjoining {t : Token} {rest : List Token} (e : TestPhrase) (ht : Part.After t .step)
    (h : ∀ u, u ≠ .symbol .slash → Adjoining (u :: rest)) :
    Adjoining (t :: (e.tokens ++ rest)) := by
  have hname {n : String} : t.Adjoins (.name n) := ht.adjoins_step (k := []) rfl
  have hclose := h (.symbol .rightParen) nofun
  cases e with
  | star => exact .cons (ht.adjoins_step (k := []) rfl) (h _ nofun)
  | name n => exact .cons hname (h _ nofun)
  | bare k starred => exact .cons hname (adjoining_call (by cases k <;> decide) _ hclose)
  | element a => exact .cons hname (adjoining_call (by decide) a hclose)
  | instruction a => exact .cons hname (adjoining_call (by decide) a hclose)

end TestPhrase

namespace Phrase

theorem adjoining_append {k : Part} (e : Phrase k) : ∀ {t rest}, Part.After t k → k.Ends rest →
    Adjoining rest → Adjoining (t :: (e.tokens ++ rest)) := by
  induction e with
  | alone p ih => exact fun ht h hs => ih ht (h.mono (by decide)) hs
  | union p q ihp ihq =>
    intro t rest ht h hs
    rw [tokens, List.append_assoc]
    exact ihp ht (Part.ends_cons (by decide) _) (ihq ⟨.pipe, by decide, rfl⟩ h hs)
  | root =>
    intro t rest ht h hs
    refine .cons (ht.adjoins nofun) (.of_ends (fun y hy => ?_) h hs)
    constructor
    · constructor <;> rintro rfl <;> exact absurd hy (by decide)
    · rintro ⟨⟩
      exact absurd hy (by decide)
  | absolute l ss ih =>
    intro t rest ht h hs
    refine .cons (ht.adjoins (by cases l <;> nofun)) (ih ?_ h hs)
    cases l <;> exact ⟨_, by decide, rfl⟩
  | relative ss ih =>
    intro t rest ht h hs
    obtain ⟨y, hy, rfl⟩ := ht
    exact ih ⟨y, List.mem_append_left _ hy, rfl⟩ h hs
  | last s ih => exact fun ht h hs => ih ht (h.mono (by decide)) hs
  | join s l ss ihs ihss =>
    intro t rest ht h hs
    have hl : l.symbol ∈ Part.followers .step := by cases l <;> decide
    rw [tokens, List.append_assoc]
    refine ihs ht (Part.ends_cons hl _) (ihss ?_ h hs)
    cases l <;> exact ⟨_, by decide, rfl⟩
  | dot =>
    intro t rest ht h hs
    exact .cons (ht.adjoins_step (k := []) rfl) (.of_ends (Token.adjoins_follower nofun) h hs)
  | doubleDot =>
    intro t rest ht h hs
    exact .cons (ht.adjoins_step (k := []) rfl) (.of_ends (Token.adjoins_follower nofun) h hs)
  | tested axis test ps ih =>
    intro t rest ht h hs
    have htest {t : Token} (ht : Part.After t .step) :=
      test.adjoining ht fun u hu => ih hu h hs
    rw [tokens, List.append_assoc, List.append_assoc]
    cases axis with
    | none => exact htest ht
    | some a =>
      exact .cons (ht.adjoins_step (k := []) rfl)
        (.cons (Token.adjoins_symbol nofun (by decide)) (htest ⟨.doubleColon, by decide, rfl⟩))
  | none => exact fun ht h hs => .of_ends (Token.adjoins_follower ht) h hs
  | more p ps ihp ihps =>
    intro t rest ht h hs
    have e : (more p ps).tokens ++ rest
        = .symbol .leftBracket :: (p.tokens ++ .symbol .rightBracket :: (ps.tokens ++ rest)) := by
      simp [tokens]
    rw [e]
    exact .cons (Token.adjoins_symbol ht (by decide))
      (ihp ⟨.leftBracket, by decide, rfl⟩ (Part.ends_cons (by decide) _) (ihps nofun h hs))
  | position n =>
    intro t rest ht h hs
    exact .cons (ht.adjoins nofun) (.of_ends (Token.adjoins_follower nofun) h hs)
  | attributed name c =>
    intro t rest ht h hs
    refine .cons (ht.adjoins nofun) (.cons ⟨trivial, nofun⟩ ?_)
    cases c with
    | none => exact .of_ends (Token.adjoins_follower nofun) h hs
    | some c =>
      obtain ⟨equal, v⟩ := c
      have hv : Adjoining (v.token :: rest) :=
        .of_ends (Token.adjoins_follower (by cases v <;> nofun)) h hs
      cases equal <;> cases v <;>
        exact .cons (Token.adjoins_symbol nofun (by decide)) (.cons ⟨trivial, nofun⟩ hv)
  | not p ih =>
    intro t rest ht h hs
    rw [tokens, List.cons_append, List.cons_append, List.append_assoc]
    refine .cons (ht.adjoins nofun) (.cons (Token.name_adjoins (by decide)) ?_)
    exact ih ⟨.leftParen, by decide, rfl⟩ (Part.ends_cons (by decide) _)
      (.of_ends (Token.adjoins_follower nofun) h hs)
  | selects q ih => exact fun ht h hs => ih ht h hs

theorem adjoining (e : Phrase .query) : Adjoining e.tokens := by
  have h := e.adjoining_append ⟨.pipe, by decide, rfl⟩ (Part.ends_nil _) .nil
  rw [List.append_nil] at h
  exact h.tail

end Phrase

end Stylesheet.Query
