import Mathlib
import ByteLayout.Proofs.Syntax.Order

set_option autoImplicit false

/-!
# Where an evaluation goes between two steps

An evaluation counts a step at each member it builds, each element of an array, each statement
of a function body and each iteration of a loop. Between two steps it goes down the syntax it
was given, with two ways back up: a type built through a forward reference is built from the
declaration the registry holds under that name, and `Type::member` follows the type's aliases
and forward references to an enum and evaluates the values of the enum's entries. A function
call runs a body whose statements count, and so does every member of a compound.

This file names the syntax crossed between two steps (`Spot`, `Spot.Next`) and shows how the
registry orders it. The registry of a parsed program is read in order, so from the `j`-th
entry every jump into the registry lands on an entry before it (`Program.below_entry`), with
one exception: an enum entry whose value reads the enum itself through a forward reference,
as `enum E : u8 { A = 1, B = E::A + 1 }` does (`Program.SelfScopedEnum`). Every other piece of
the program jumps only into the registry (`Program.WellFormed.grounded`).

## Main definitions

* `Spot`, `Spot.Next` — an expression evaluated, a type built, or a type whose entries
  `Type::member` reads, and where the evaluator goes from each without counting a step.
* `Program.JumpsBelow`, `Program.Below` — the registry jumps of a spot, and of every spot after
  it, land before index `L`.
* `Program.Has`, `Program.Grounded` — spots that are pieces of the program, and those whose
  jumps land before an index.
* `Program.SelfScopedEnum` — an enum entry that reads its own enum by a forward reference.

## Main results

* `Program.below_entry` — from the `j`-th registry entry, jumps land before index `j`.
* `Program.WellFormed.grounded` — from any piece of a well-formed program, jumps land in the
  registry.
* `Program.Holds.sizeOf_le` — each piece of a program is no larger than the program.
-/

namespace ByteLayout

open Relation

/-- A place the evaluator reaches without counting a step: an expression it evaluates, a type
it builds, or a type whose enum entries `Type::member` reads. -/
inductive Spot where
  | expr (e : Expr)
  | built (d : TypeDecl)
  | named (d : TypeDecl)

/-- A body that `Type::member` reads no further: neither an alias, a forward reference nor an
enum. A scope on such a type fails at once. -/
def TypeBody.Plain : TypeBody → Prop
  | .alias _ | .forward _ | .enum _ _ => False
  | _ => True

/-- An enumeration body. -/
def TypeBody.isEnum : TypeBody → Bool
  | .enum .. => true
  | _ => false

lemma TypeBody.not_holds_forward {q : String} {x : Piece} : ¬ (TypeBody.forward q).Holds x := by
  rintro ⟨⟩

lemma TypeBody.not_holds_builtin {b : Builtin} {x : Piece} : ¬ (TypeBody.builtin b).Holds x := by
  rintro ⟨⟩

namespace Spot

/-- Where the evaluator goes from a spot before it counts a step: into the parts of an
expression and the type a `Type::member` names; into the bases, the alias target, the enum
values and the bitfield widths of a type it builds; and from a type whose entries
`Type::member` reads, to an alias's target or to the values of an enum's entries. A forward
reference is followed in the registry, which `Program.JumpsBelow` accounts for. -/
inductive Next : Spot → Spot → Prop
  | sub {e e' : Expr} : Piece.Child (.expr e) (.expr e') → Next (.expr e) (.expr e')
  | scope {ty : TypeDecl} {m : String} {sp : Span} : Next (.expr (.scope ty m sp)) (.named ty)
  | part {d b : TypeDecl} : d.body.Holds (.use b) → Next (.built d) (.built b)
  | value {d : TypeDecl} {e : Expr} : d.body.Holds (.expr e) → Next (.built d) (.expr e)
  | target {d t : TypeDecl} : d.body = .alias t → Next (.named d) (.named t)
  | entry {d : TypeDecl} {u : Builtin} {es : List EnumEntry} {en : EnumEntry} :
      d.body = .enum u es → en ∈ es → Next (.named d) (.expr en.value)

variable {d d' : TypeDecl} {y : Spot}

/-- A built type leads where a type with the same body leads. -/
lemma Next.built_of_body (hb : d.body = d'.body) (h : Next (.built d) y) : Next (.built d') y := by
  cases h with
  | part h => exact .part (hb ▸ h)
  | value h => exact .value (hb ▸ h)

lemma Next.named_of_body (hb : d.body = d'.body) (h : Next (.named d) y) :
    Next (.named d') y := by
  cases h with
  | target h => exact .target (hb ▸ h)
  | entry h hen => exact .entry (hb ▸ h) hen

/-- Only a type whose body holds pieces leads anywhere. -/
lemma Next.holds_of_built (h : Next (.built d) y) : ∃ x, d.body.Holds x := by
  cases h with
  | part h => exact ⟨_, h⟩
  | value h => exact ⟨_, h⟩

lemma Next.holds_of_named (h : Next (.named d) y) : ∃ x, d.body.Holds x := by
  cases h with
  | target h => exact ⟨.use _, by rw [h]; exact .aliasTarget⟩
  | entry h hen => exact ⟨.expr _, by rw [h]; exact .enumValue hen⟩

end Spot

/-! ### Jumps into the registry -/

namespace Program

/-- The registry jumps of a spot land before index `L`: a built forward reference names one of
the first `L` entries, and so does a forward reference that `Type::member` follows, unless the
declaration it names is plain and the scope fails there. -/
def JumpsBelow (p : Program) (L : Nat) : Spot → Prop
  | .expr _ => True
  | .built d => ∀ q, d.body = .forward q → q ∈ (p.types.take L).map Prod.fst
  | .named d => ∀ q, d.body = .forward q →
      q ∈ (p.types.take L).map Prod.fst ∨ ∀ e, p.typeNamed? q = some e → e.body.Plain

/-- The registry jumps of a spot and of every spot after it land before index `L`. -/
def Below (p : Program) (L : Nat) (x : Spot) : Prop :=
  ∀ y, ReflTransGen Spot.Next x y → p.JumpsBelow L y

/-- The spots that are pieces of a program: its expressions, and its type uses and registered
declarations, built or read by `Type::member`. -/
def Has (p : Program) : Spot → Prop
  | .expr e => p.Holds (.expr e)
  | .built d | .named d => p.Holds (.use d) ∨ d ∈ p.types.map Prod.snd

/-- A piece of the program whose registry jumps, and those of every spot after it, land before
index `L`. -/
def Grounded (p : Program) (L : Nat) (x : Spot) : Prop := p.Has x ∧ p.Below L x

/-- An enum entry whose value reads, by `Type::member`, a forward reference to the enum itself:
`enum E : u8 { A = 1, B = E::A + 1 }`. Evaluating such an entry evaluates the entry again
without counting a step. -/
def SelfScopedEnum (p : Program) : Prop :=
  ∃ q d, (q, d) ∈ p.types ∧ ∃ u es, d.body = .enum u es ∧ ∃ en ∈ es, ∃ ty m sp,
    ReflTransGen Piece.Child (.expr en.value) (.expr (.scope ty m sp)) ∧ ty.body = .forward q

/-- A registry without enumerations has none that reads itself. -/
lemma not_selfScopedEnum_of_isEnum {p : Program} (h : ∀ e ∈ p.types, e.2.body.isEnum = false) :
    ¬ p.SelfScopedEnum := by
  rintro ⟨q, d, hmem, u, es, hd, -⟩
  simpa [hd, TypeBody.isEnum] using h _ hmem

variable {p : Program} {L L' : Nat} {x y : Spot}

lemma JumpsBelow.mono (h : p.JumpsBelow L x) (hL : L ≤ L') : p.JumpsBelow L' x := by
  have hsub : (p.types.take L).map Prod.fst ⊆ (p.types.take L').map Prod.fst :=
    List.map_subset _ (List.take_prefix_take_left hL).subset
  cases x with
  | expr e => trivial
  | built d => exact fun q hq => hsub (h q hq)
  | named d => exact fun q hq => (h q hq).imp_left fun hm => hsub hm

lemma Below.self (h : p.Below L x) : p.JumpsBelow L x := h x .refl

lemma Below.next (h : p.Below L x) (hy : Spot.Next x y) : p.Below L y :=
  fun z hz => h z (.head hy hz)

lemma Below.mono (h : p.Below L x) (hL : L ≤ L') : p.Below L' x :=
  fun y hy => (h y hy).mono hL

/-- Spots closed under `Spot.Next` whose jumps land before `L` are below `L`. -/
lemma below_of_closed {S : Spot → Prop} (hS : ∀ y z, S y → Spot.Next y z → S z)
    (hJ : ∀ y, S y → p.JumpsBelow L y) (hx : S x) : p.Below L x := by
  refine fun y hy => hJ y ?_
  induction hy with
  | refl => exact hx
  | tail _ hyz ih => exact hS _ _ ih hyz

/-- The pieces of a type of the program are pieces of the program. -/
lemma Has.body {d : TypeDecl} (h : p.Holds (.use d) ∨ d ∈ p.types.map Prod.snd) {z : Piece}
    (hz : d.body.Holds z) : p.Holds z := by
  rcases h with h | h
  · exact h.child (.use hz)
  · obtain ⟨e, he, rfl⟩ := List.mem_map.mp h
    exact (Holds.registered he).child (.decl hz)

lemma Has.next (h : p.Has x) (hy : Spot.Next x y) : p.Has y := by
  cases hy with
  | sub hc => exact Holds.child h hc
  | scope => exact .inl (Holds.child h .scope)
  | part hb => exact .inl (Has.body h hb)
  | value hb => exact Has.body h hb
  | target hd => exact .inl (Has.body h (hd ▸ .aliasTarget))
  | entry hd hen => exact Has.body h (hd ▸ .enumValue hen)

lemma Grounded.next (h : p.Grounded L x) (hy : Spot.Next x y) : p.Grounded L y :=
  ⟨h.1.next hy, h.2.next hy⟩

/-- A use naming the first `L` entries of a registry of declared types jumps below `L`. -/
lemma jumpsBelow_of_namesIn (hdecl : ∀ e ∈ p.types, ∀ q, e.2.body ≠ .forward q) {b : TypeDecl}
    (hb : b.NamesIn (p.types.take L) []) :
    p.JumpsBelow L (.built b) ∧ p.JumpsBelow L (.named b) := by
  suffices h : ∀ q, b.body = .forward q → q ∈ (p.types.take L).map Prod.fst from
    ⟨h, fun q hq => .inl (h q hq)⟩
  intro q hq
  rcases hb with ⟨q', hq', hm | hm⟩ | ⟨e, he, hbe⟩ | ⟨-, bt, hbt⟩
  · rw [hq] at hq'
    cases hq'
    exact hm
  · cases hm
  · -- a copy of a registered declaration is no forward reference
    have hbody : e.body = b.body := by rw [← hbe]
    have he' : (b.name, e) ∈ p.types :=
      (List.take_subset _ _) (Parse.mem_of_lookup_eq_some he)
    exact absurd (hbody.trans hq) (hdecl _ he' q)
  · rw [hq] at hbt
    cases hbt

/-- A name among the first `L` entries of a registry is found among them. -/
lemma lookup_lt_of_mem_take {l : List (String × TypeDecl)} {q : String} {d : TypeDecl}
    (hq : q ∈ (l.take L).map Prod.fst) (hd : l.lookup q = some d) :
    ∃ i, ∃ hi : i < l.length, i < L ∧ l[i] = (q, d) := by
  obtain ⟨d', hd'⟩ := Option.isSome_iff_exists.mp (Parse.isSome_lookup_of_mem hq)
  have hl : l.lookup q = some d' := by
    rw [← List.take_append_drop L l, List.lookup_append, hd']
    rfl
  rw [hd] at hl
  cases hl
  obtain ⟨i, hi, he⟩ := List.mem_iff_getElem.mp (Parse.mem_of_lookup_eq_some hd')
  have hlen := List.length_take_le' L l
  have hiL : i < L := lt_of_lt_of_le hi (by simp)
  exact ⟨i, by omega, hiL, by rw [← he, List.getElem_take]⟩

/-- In a registry with one entry per name, an entry is what its name looks up. -/
lemma lookup_getElem {l : List (String × TypeDecl)} (hl : (l.map Prod.fst).Nodup) {j : Nat}
    (hj : j < l.length) : l.lookup l[j].1 = some l[j].2 := by
  induction l generalizing j with
  | nil => cases hj
  | cons a l ih =>
    rw [List.map_cons, List.nodup_cons] at hl
    cases j with
    | zero => simp [List.lookup]
    | succ j =>
      have hj' : j < l.length := by simpa using hj
      -- the entry's name is not the head's, which occurs nowhere else
      have hne : (l[j].1 == a.1) = false := by
        rw [beq_eq_false_iff_ne]
        intro h
        exact hl.1 (h ▸ List.mem_map_of_mem (List.getElem_mem hj'))
      simp only [List.getElem_cons_succ, List.lookup, hne]
      exact ih hl.2 hj'

/-! ### The registry of a parsed program is crossed in order -/

section Entries

variable (p) in
/-- The `j`-th entry of the registry is below index `j`. -/
def EntryBelow (j : Nat) : Prop :=
  ∀ hj : j < p.types.length, p.Below j (.built p.types[j].2) ∧ p.Below j (.named p.types[j].2)

/-- A use naming the first `j` entries leads, in one step, only where an earlier entry leads:
it is a forward reference or a builtin, which lead nowhere before the jump, or a copy of an
earlier entry, which leads where the entry leads. -/
lemma below_of_namesIn {j : Nat} (ih : ∀ i < j, p.EntryBelow i) {b : TypeDecl} {O : List String}
    (hb : b.NamesIn (p.types.take j) O) {z : Spot}
    (hz : Spot.Next (.built b) z ∨ Spot.Next (.named b) z) : ∃ i < j, p.Below i z := by
  rcases hb with ⟨q, hq, -⟩ | ⟨e, he, hbe⟩ | ⟨-, bt, hbt⟩
  · obtain ⟨x, hx⟩ := hz.elim Spot.Next.holds_of_built Spot.Next.holds_of_named
    rw [hq] at hx
    exact absurd hx TypeBody.not_holds_forward
  · obtain ⟨i, hi, he'⟩ := List.mem_iff_getElem.mp (Parse.mem_of_lookup_eq_some he)
    have hlen := List.length_take_le' j p.types
    have hij : i < j := lt_of_lt_of_le hi (by simp)
    have hil : i < p.types.length := by omega
    have hentry : p.types[i] = (b.name, e) := by rw [← he', List.getElem_take]
    have hbody : b.body = p.types[i].2.body := by rw [hentry, ← hbe]
    obtain ⟨hbuilt, hnamed⟩ := ih i hij hil
    rcases hz with hz | hz
    · exact ⟨i, hij, hbuilt.next (hz.built_of_body hbody)⟩
    · exact ⟨i, hij, hnamed.next (hz.named_of_body hbody)⟩
  · obtain ⟨x, hx⟩ := hz.elim Spot.Next.holds_of_built Spot.Next.holds_of_named
    rw [hbt] at hx
    exact absurd hx TypeBody.not_holds_builtin

/-- A `Type::member` inside the `j`-th entry jumps below `j`: to an earlier entry, or to the
entry itself when the entry is a bitfield, where the scope fails. An enum cannot be there
unless it reads itself. -/
lemma jumpsBelow_scope (hp : p.WellFormed) (hself : ¬ p.SelfScopedEnum) {j : Nat}
    (hj : j < p.types.length) {e₀ : Expr} (he₀ : p.types[j].2.body.Holds (.expr e₀))
    {ty : TypeDecl} {m : String} {sp : Span}
    (hrtg : ReflTransGen Piece.Child (.expr e₀) (.expr (.scope ty m sp)))
    (hty : ty.NamesIn (p.types.take j) [p.types[j].2.name]) : p.JumpsBelow j (.named ty) := by
  intro q hq
  rcases hty with ⟨q', hq', hm | hm⟩ | ⟨e, he, hbe⟩ | ⟨-, bt, hbt⟩
  · rw [hq] at hq'
    cases hq'
    exact .inl hm
  · -- the entry's own name, which looks up the entry itself
    rw [hq] at hq'
    cases hq'
    rw [List.mem_singleton] at hm
    subst hm
    right
    intro e he
    have hkey : p.types[j].1 = p.types[j].2.name :=
      (hp.registry.keyed _ (List.getElem_mem hj)).symm
    have hlook := lookup_getElem hp.registry.nodup hj
    rw [hkey] at hlook
    rw [typeNamed?, hlook] at he
    cases he
    generalize hb : p.types[j].2.body = B at he₀
    cases he₀ with
    | bitfieldWidth _ => trivial
    | enumValue hen =>
      exact absurd ⟨_, _, List.getElem_mem hj, _, _, hb, _, hen, ty, m, sp, hrtg,
        hkey ▸ hq⟩ hself
  · -- a copy of an earlier entry is no forward reference
    have hbody : e.body = ty.body := by rw [← hbe]
    have he' : (ty.name, e) ∈ p.types :=
      (List.take_subset _ _) (Parse.mem_of_lookup_eq_some he)
    exact absurd (hbody.trans hq) (hp.registry.declared _ he' q)
  · rw [hq] at hbt
    cases hbt

end Entries

/-- The spots reached from a declaration before a jump leaves it: the declaration itself, the
types it is made of, the expressions of its body, and the types their `Type::member` name. -/
inductive Inside (d : TypeDecl) : Spot → Prop
  | built : Inside d (.built d)
  | named : Inside d (.named d)
  | partBuilt {b : TypeDecl} : d.body.Holds (.use b) → Inside d (.built b)
  | partNamed {b : TypeDecl} : d.body.Holds (.use b) → Inside d (.named b)
  | expr {e₀ e : Expr} : d.body.Holds (.expr e₀) →
      ReflTransGen Piece.Child (.expr e₀) (.expr e) → Inside d (.expr e)
  | scope {e₀ : Expr} {ty : TypeDecl} {m : String} {sp : Span} : d.body.Holds (.expr e₀) →
      ReflTransGen Piece.Child (.expr e₀) (.expr (.scope ty m sp)) → Inside d (.named ty)

/-- **The registry is crossed in order.** From the `j`-th entry of a parsed program, built or
read by `Type::member`, every registry jump the evaluator makes before it counts a step lands
before index `j`, unless an enum reads itself.

**Proof sketch.** By strong induction on `j`. The spots inside the entry (`Inside`) lead to
spots inside it, or through a copy of an earlier entry to where that entry leads, which is
below an earlier index by induction. Inside the entry, the types it is made of name earlier
entries (`TypeDecl.ReadsBefore.uses`), and a `Type::member` names an earlier entry or the entry
itself, which must then be a bitfield (`jumpsBelow_scope`). -/
theorem below_entry (hp : p.WellFormed) (hord : Parse.Ordered p.types)
    (hself : ¬ p.SelfScopedEnum) (j : Nat) : p.EntryBelow j := by
  induction j using Nat.strong_induction_on with
  | _ j ih =>
  intro hj
  have hr : p.types[j].2.ReadsBefore (p.types.take j) := hord j hj
  have hdecl : ∀ q, p.types[j].2.body ≠ .forward q :=
    hp.registry.declared _ (List.getElem_mem hj)
  -- a `Type::member` inside the entry names the first `j` entries or the entry itself
  have hnames : ∀ {e₀ ty m sp}, p.types[j].2.body.Holds (.expr e₀) →
      ReflTransGen Piece.Child (.expr e₀) (.expr (.scope ty m sp)) →
      ty.NamesIn (p.types.take j) [p.types[j].2.name] := fun h₀ hrtg =>
    hr.sound (.use _) (.head (.decl h₀) (hrtg.tail .scope))
  -- the spots inside the entry, and those below an earlier index, are closed under `Next`
  have hclosed : ∀ y z, (Inside p.types[j].2 y ∨ ∃ i < j, p.Below i y) → Spot.Next y z →
      Inside p.types[j].2 z ∨ ∃ i < j, p.Below i z := by
    rintro y z (hy | ⟨i, hi, hiy⟩) hz
    · cases hy with
      | built =>
        cases hz with
        | part hb => exact .inl (.partBuilt hb)
        | value hb => exact .inl (.expr hb .refl)
      | named =>
        cases hz with
        | target h => exact .inl (.partNamed (h ▸ .aliasTarget))
        | entry h hen => exact .inl (.expr (h ▸ .enumValue hen) .refl)
      | partBuilt hb => exact .inr (below_of_namesIn ih (hr.uses _ hb) (.inl hz))
      | partNamed hb => exact .inr (below_of_namesIn ih (hr.uses _ hb) (.inr hz))
      | expr h₀ hrtg =>
        cases hz with
        | sub hc => exact .inl (.expr h₀ (hrtg.tail hc))
        | scope => exact .inl (.scope h₀ hrtg)
      | scope h₀ hrtg => exact .inr (below_of_namesIn ih (hnames h₀ hrtg) (.inr hz))
    · exact .inr ⟨i, hi, hiy.next hz⟩
  have hjumps : ∀ y, (Inside p.types[j].2 y ∨ ∃ i < j, p.Below i y) → p.JumpsBelow j y := by
    rintro y (hy | ⟨i, hi, hiy⟩)
    · cases hy with
      | built => exact fun q hq => absurd hq (hdecl q)
      | named => exact fun q hq => absurd hq (hdecl q)
      | partBuilt hb => exact (jumpsBelow_of_namesIn hp.registry.declared (hr.uses _ hb)).1
      | partNamed hb => exact (jumpsBelow_of_namesIn hp.registry.declared (hr.uses _ hb)).2
      | expr => trivial
      | scope h₀ hrtg => exact jumpsBelow_scope hp hself hj h₀ hrtg (hnames h₀ hrtg)
    · exact hiy.self.mono hi.le
  exact ⟨below_of_closed hclosed hjumps (.inl .built), below_of_closed hclosed hjumps (.inl .named)⟩

/-- A registered declaration of a parsed program, built or read by `Type::member`, is grounded
at its own index. -/
lemma grounded_entry (hp : p.WellFormed) (hord : Parse.Ordered p.types)
    (hself : ¬ p.SelfScopedEnum) {j : Nat} (hj : j < p.types.length) :
    p.Grounded j (.built p.types[j].2) ∧ p.Grounded j (.named p.types[j].2) := by
  have hmem : p.types[j].2 ∈ p.types.map Prod.snd := List.mem_map_of_mem (List.getElem_mem hj)
  obtain ⟨hb, hs⟩ := below_entry hp hord hself j hj
  exact ⟨⟨.inr hmem, hb⟩, ⟨.inr hmem, hs⟩⟩

/-- Every piece of a well-formed program jumps only into its registry. -/
lemma WellFormed.jumpsBelow (hp : p.WellFormed) (h : p.Has x) :
    p.JumpsBelow p.types.length x := by
  cases x with
  | expr e => trivial
  | built d | named d =>
    rcases h with h | h
    · have hv : d.NamesIn (p.types.take p.types.length) [] := by
        rw [List.take_length]
        exact hp.valid _ h
      first
      | exact (jumpsBelow_of_namesIn hp.registry.declared hv).1
      | exact (jumpsBelow_of_namesIn hp.registry.declared hv).2
    · obtain ⟨e, he, rfl⟩ := List.mem_map.mp h
      exact fun q hq => absurd hq (hp.registry.declared e he q)

/-- Every piece of a well-formed program is grounded in its whole registry. -/
lemma WellFormed.grounded (hp : p.WellFormed) (h : p.Has x) : p.Grounded p.types.length x :=
  ⟨h, below_of_closed (fun _ _ hy hz => hy.next hz) (fun _ hy => hp.jumpsBelow hy) h⟩

end Program

/-! ### Sizes -/

lemma TypeDecl.sizeOf_body_lt (d : TypeDecl) : sizeOf d.body + 2 < sizeOf d := by
  obtain ⟨name, en, body, attrs, sp⟩ := d
  have h₁ : 0 < sizeOf name := by cases name; simp
  have h₂ : 0 < sizeOf sp := by cases sp; simp
  simp
  omega

/-- The immediate pieces of a body are smaller than the body. -/
lemma TypeBody.Holds.sizeOf_lt {b : TypeBody} {x : Piece} (h : b.Holds x) :
    sizeOf x < sizeOf b + 2 := by
  cases h with
  | base hb => have := List.sizeOf_lt_of_mem hb; simp; omega
  | structMember hs => have := List.sizeOf_lt_of_mem hs; simp; omega
  | unionMember hs => have := List.sizeOf_lt_of_mem hs; simp; omega
  | @enumValue u es en hen =>
    have := List.sizeOf_lt_of_mem hen
    have : sizeOf en.value < sizeOf en := by cases en; simp
    simp
    omega
  | @bitfieldWidth es en hen =>
    have := List.sizeOf_lt_of_mem hen
    have : sizeOf en.width < sizeOf en := by cases en; simp
    simp
    omega
  | aliasTarget => simp

/-- A piece is larger than each of its immediate pieces. -/
lemma Piece.Child.sizeOf_lt {x y : Piece} (h : Piece.Child x y) : sizeOf y < sizeOf x := by
  cases h
  case param p hp =>
    have := List.sizeOf_lt_of_mem hp
    have : sizeOf p.ty < sizeOf p := by cases p; simp
    simp
    omega
  case use d hd =>
    have := hd.sizeOf_lt
    have := d.sizeOf_body_lt
    simp
    omega
  case decl d hd =>
    have := hd.sizeOf_lt
    have := d.sizeOf_body_lt
    simp
    omega
  -- the other pieces are fields of their parent, or members of one of its lists
  all_goals first
    | (simp; omega)
    | (rename_i hm; have := List.sizeOf_lt_of_mem hm; simp at this ⊢; omega)

lemma Piece.sizeOf_le_of_reflTransGen {x y : Piece} (h : ReflTransGen Piece.Child x y) :
    sizeOf y ≤ sizeOf x := by
  induction h with
  | refl => exact le_rfl
  | tail _ hyz ih => exact hyz.sizeOf_lt.le.trans ih

namespace Program

variable {p : Program}

/-- Each piece of a program is no larger than the program. -/
lemma Holds.sizeOf_le {x : Piece} (h : p.Holds x) : sizeOf x ≤ sizeOf p := by
  have hp : sizeOf p = 1 + sizeOf p.stmts + sizeOf p.types := by cases p; simp
  rcases h with ⟨s, hs, hx⟩ | ⟨e, he, hx⟩
  · have h₁ := List.sizeOf_lt_of_mem hs
    have h₂ := Piece.sizeOf_le_of_reflTransGen hx
    simp at h₂
    omega
  · have h₁ := List.sizeOf_lt_of_mem he
    have h₂ := Piece.sizeOf_le_of_reflTransGen hx
    have h₃ : sizeOf e.2 < sizeOf e := by cases e; simp
    simp at h₂
    omega

lemma Has.sizeOf_expr_lt {e : Expr} (h : p.Has (.expr e)) : sizeOf e < sizeOf p := by
  have := Holds.sizeOf_le (x := .expr e) h
  simp at this
  omega

lemma Has.sizeOf_type_lt {d : TypeDecl} (h : p.Holds (.use d) ∨ d ∈ p.types.map Prod.snd) :
    sizeOf d < sizeOf p := by
  rcases h with h | h
  · have := h.sizeOf_le
    simp at this
    omega
  · obtain ⟨e, he, rfl⟩ := List.mem_map.mp h
    have := (Holds.registered he).sizeOf_le
    simp at this
    omega

end Program

end ByteLayout
