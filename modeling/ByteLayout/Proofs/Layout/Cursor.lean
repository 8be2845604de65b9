import Mathlib
import ByteLayout.Proofs.Eval.Invariant
import ByteLayout.Proofs.Layout.Strings

set_option autoImplicit false

/-!
# Where the cursor can go

The cursor moves in three ways: past bytes that were checked to lie in the data, to an
address a placement or a pointer gives (and back afterwards), and to the farthest end of a
union's members. So every evaluation ends with the cursor at or below where it started or
the end of the data (`Machine.CursorWithin`). Placements and pointer addresses of `2 ^ 64` or
more are refused, so over data of fewer than `2 ^ 64` bytes the cursor stays a 64-bit offset,
and every sum a range check guards is at most the data's size.

One sum is not guarded: an unsized string asks whether one more character fits by adding the
character's width to the cursor before comparing with the data's size. Placed at the last
address of the 64-bit space, over data that does not reach it, the string's first test sums
past the largest 64-bit offset, and the run stops on the overflow
(`unsizedString_at_top_overflows`).

## Main definitions

* `Machine.CursorWithin` — the cursor at or below where a run started or the end of the data.

## Main results

* `cursor_stays_within` — every function of the evaluator keeps the cursor within bounds.
* `unsizedString_at_top_overflows` — an unsized string at `2 ^ 64 - 1` overflows its test.
-/

namespace ByteLayout

open Eval

/-- The cursor of a run is at or below where the run started or the end of the data. -/
def Machine.CursorWithin (c : Context) (m₀ m : Machine) : Prop :=
  m.cursor ≤ max m₀.cursor c.data.size

/-- Every change the evaluator makes to its state keeps the cursor within bounds: it only
moves past checked bytes, to an address and back, or to the farthest end of a union. -/
lemma Machine.cursorWithin_invariant : Invariant Machine.CursorWithin where
  refl := le_max_left _ _
  trans h₁ h₂ := by simp only [Machine.CursorWithin] at *; omega
  frame h hc _ _ := by simp only [Machine.CursorWithin, hc] at *; exact h
  inData _ hn := le_max_of_le_right hn
  away _ := le_max_left _ _
  farthest h₁ h₂ := max_le h₁ h₂
  endian h := h
  push h := h
  pop h := h
  extend h := h
  define h _ := h
  assign h _ := h
  host h _ := h

/-- **The cursor never passes the end of the data or its start.** Every function of the
evaluator, at every fuel, ends with the cursor at or below where it started or the end of
the data, whether it succeeds or fails; so a member built over data of fewer than `2 ^ 64`
bytes, from a cursor below `2 ^ 64`, leaves the cursor below `2 ^ 64` however it ends.

**Proof sketch.** The cursor only moves past bytes a range check or a read found in the data,
to an address and back, and to the farthest end of a union's members
(`Machine.cursorWithin_invariant`). -/
theorem cursor_stays_within (fuel : Nat) (s : Stmt) (c : Context) (m : Machine)
    (hd : c.data.size < 2 ^ 64) (hm : m.cursor < 2 ^ 64) :
    KeptAt Machine.CursorWithin fuel ∧
      WpAll (buildMember fuel s) c m (fun _ m' => m'.cursor < 2 ^ 64)
        fun _ m' => m'.cursor < 2 ^ 64 := by
  refine ⟨Machine.cursorWithin_invariant.keptAt fuel, ?_⟩
  have below : ∀ m' : Machine, Machine.CursorWithin c m m' → m'.cursor < 2 ^ 64 := by
    intro m' h
    simp only [Machine.CursorWithin] at h
    omega
  exact ((Machine.cursorWithin_invariant.keptAt fuel).buildMember s c m).mono
    (fun _ m' => below m') fun _ m' => below m'

/-- The member of `u8 x @ 0;` over one byte leaves the cursor a 64-bit offset. -/
theorem cursor_stays_within_byte :
    ∃ p, parseTokens tokensByte = .ok p ∧ ∀ s ∈ p.stmts,
      WpAll (buildMember Eval.fuel s) (Context.of p (ByteArray.mk #[7]) RunConfig.standard)
        (Machine.initial []) (fun _ m' => m'.cursor < 2 ^ 64) fun _ m' => m'.cursor < 2 ^ 64 :=
  ⟨_, Except.eq_ok_get (by decide +kernel), fun s _ =>
    (cursor_stays_within _ s _ _ (by decide) (by decide)).2⟩

/-- An unsized string placed at the last address of the 64-bit space, over no data, stops the
run: its loop asks whether one character fits past that address, and the sum it would compare
with the data's size is `2 ^ 64`, one past the largest 64-bit offset. -/
theorem unsizedString_at_top_overflows :
    ∃ p, parseTokens tokensCharsTop = .ok p ∧
      runProgram p ByteArray.empty RunConfig.standard [] =
        .error ⟨.addOverflow, some 1, some "s"⟩ :=
  ⟨_, Except.eq_ok_get (by decide +kernel),
    Except.eq_error_of_map (f := fun _ => ()) (by decide +kernel)⟩

end ByteLayout
