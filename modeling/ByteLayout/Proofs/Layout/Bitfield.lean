import ByteLayout.Proofs.Layout.Elements

set_option autoImplicit false

/-!
# Bitfields partition their bits

A bitfield's entries take consecutive bit ranges from the low bit of the bitfield's value:
an entry of width `w` after entries of widths adding up to `o` takes bits `o` to `o + w - 1`.
The widths may add up to at most 128 bits, and the bitfield takes as many bytes as its bits
need. Every entry that is not padding yields a field, in declaration order; a field spans the
bytes of the whole bitfield and reads as its bits of the bitfield's value. So the fields'
bit ranges are disjoint and lie inside the bitfield's bits.

## Main definitions

* `FieldBits`, `bitfieldFields` — the name and bit range of each field, for given widths.
* `bitfieldStep` — the processing of one entry by the builder.
* `BitfieldLaid` — what a successful build of a bitfield promises.

## Main results

* `bitfieldFields_ordered`, `bitfieldFields_inside` — the fields' bit ranges are disjoint,
  in order, and inside the bitfield's bits.
* `Node.readValue_bitfieldField` — a field reads as its bits of the word of its bytes.
* `buildBitfield_laid` — a successful build lays the bitfield as the widths say.
* `buildBitfield_tooWide` — widths adding up to more than 128 bits stop the build.
* `bitfieldLaw` — both together.
-/

namespace ByteLayout

open Eval

/-! ### Bit ranges -/

/-- The name of a field and its range of bits: `width` bits from bit `offset`. -/
structure FieldBits where
  name : String
  offset : Nat
  width : Nat

/-- The kind of node of a field. -/
def FieldBits.kind (b : FieldBits) : NodeKind := .bitfieldField b.offset b.width

/-- The fields of a bitfield whose entries have the widths `ws`: one for each entry that is not
padding, in declaration order, named as the entry, from the sum of the widths of the entries
before it (padding included) and as wide as its own width. -/
def bitfieldFields (entries : List BitfieldEntry) (ws : List Nat) : List FieldBits :=
  ((entries.zip ws).zipIdx.filter fun p => !p.1.1.padding).map
    fun p => ⟨p.1.1.name, (ws.take p.2).sum, p.1.2⟩

/-- One more entry, after entries with as many widths: a field from the sum of their widths,
unless it is padding. -/
lemma bitfieldFields_snoc {entries : List BitfieldEntry} {ws : List Nat}
    (hlen : entries.length = ws.length) (e : BitfieldEntry) (w : Nat) :
    bitfieldFields (entries ++ [e]) (ws ++ [w]) =
      bitfieldFields entries ws ++ if e.padding then [] else [⟨e.name, ws.sum, w⟩] := by
  have htake : ∀ p ∈ (entries.zip ws).zipIdx, ((ws ++ [w]).take p.2).sum = (ws.take p.2).sum := by
    intro p hp
    have hi : p.2 < ws.length := by
      obtain ⟨hi, -⟩ := List.getElem?_eq_some_iff.mp (List.mem_zipIdx_iff_getElem?.mp hp)
      simp only [List.length_zip] at hi
      omega
    rw [List.take_append_of_le_length (Nat.le_of_lt hi)]
  unfold bitfieldFields
  rw [List.zip_append hlen, List.zipIdx_append, List.filter_append, List.map_append]
  congr 1
  · exact List.map_congr_left fun p hp => by rw [htake p (List.mem_filter.mp hp).1]
  · rcases hpad : e.padding <;> simp [hpad, hlen]

/-- The widths before the `j`-th take at least the bits of those before the `i`-th and of
the `i`-th, for `i < j`. -/
lemma sum_take_add_le {ws : List Nat} {i j : Nat} (hi : i < ws.length) (hij : i < j) :
    (ws.take i).sum + ws[i] ≤ (ws.take j).sum := by
  rw [← List.sum_take_succ ws i hi]
  exact (List.take_sublist_take_left (by omega)).sum_le_sum (by simp)

/-- The fields' bit ranges are disjoint and in order: each ends where a later one starts or
before. -/
theorem bitfieldFields_ordered (entries : List BitfieldEntry) (ws : List Nat) :
    (bitfieldFields entries ws).Pairwise fun a b => a.offset + a.width ≤ b.offset := by
  unfold bitfieldFields
  rw [List.pairwise_map, List.pairwise_filter, List.pairwise_iff_getElem]
  intro i j hi hj hij _ _
  simp only [List.length_zipIdx, List.length_zip] at hi hj
  simp only [List.getElem_zipIdx, List.getElem_zip, Nat.zero_add]
  exact sum_take_add_le (by omega) hij

/-- The fields' bit ranges lie inside the bitfield's bits. -/
theorem bitfieldFields_inside (entries : List BitfieldEntry) (ws : List Nat) :
    ∀ b ∈ bitfieldFields entries ws, b.offset + b.width ≤ ws.sum := by
  intro b hb
  obtain ⟨p, hp, rfl⟩ := List.mem_map.mp hb
  have hmem := List.mem_zipIdx_iff_getElem?.mp (List.mem_filter.mp hp).1
  obtain ⟨hi, hget⟩ := List.getElem?_eq_some_iff.mp hmem
  simp only [List.length_zip] at hi
  have hw : p.1.2 = ws[p.2] := by rw [← hget, List.getElem_zip]
  simp only [hw]
  rw [← List.sum_take_succ ws p.2 (by omega)]
  exact (List.take_sublist _ _).sum_le_sum (by simp)

/-! ### Reading a field -/

/-- A field of a bitfield reads as its `width` bits from bit `offset` of the word its bytes
make, in its byte order or else the default one. -/
theorem Node.readValue_bitfieldField {f : Node} {o w : Nat} (hk : f.kind = .bitfieldField o w)
    (hs : f.size ≤ 16) (d : ByteArray) (e : Endian) :
    f.readValue d e = (Data.read d f.offset f.size).map fun bytes =>
      .uint (Word.ofBytes (f.endian.getD e) bytes / 2 ^ o % 2 ^ w) := by
  unfold Node.readValue
  rw [hk]
  dsimp only
  rw [Node.readWord, if_neg (by omega)]
  cases Data.read d f.offset f.size <;> rfl

/-! ### Building -/

/-- One entry of a bitfield starting at `start`, after entries that took `off` bits: its width
is evaluated and checked against the bits left, and a field is made unless it is padding. -/
def bitfieldStep (fuel start : Nat) : Nat × List Node → BitfieldEntry → Eval (Nat × List Node) :=
  fun (off, fields) entry => do
    let w ← lift (← evalExpr fuel entry.width).toUnsigned
    if w ≥ 2 ^ 32 || w > 128 - off then fault .bitfieldTooWide
    if entry.padding then return (off + w, fields)
    let field ← newNode entry.name "bits" start 0 (.bitfieldField off w)
    return (off + w, field :: fields)

/-- The builder of a bitfield is the fold of `bitfieldStep` over its entries, then the node. -/
lemma buildBitfield_succ (fuel : Nat) (entries : List BitfieldEntry) (name tn : String) :
    buildBitfield (fuel + 1) entries name tn = do
      let start ← cursor
      let (bits, fields) ← entries.foldlM (bitfieldStep fuel start) (0, [])
      let size := (bits + 7) / 8
      checkRange start size
      let fields := fields.reverse.map fun f => { f with size := size }
      setCursor (start + size)
      let node ← newNode name tn start size .bitfield
      return { node with children := fields } := rfl

/-- The width of the `j`-th of `entries` evaluates to `w` where a build of the bitfield from
`m` reaches it: in the state the fold of `bitfieldStep` over the entries before it ran to. -/
def BitfieldEntry.WidthIs (fuel : Nat) (c : Context) (m : Machine) (entries : List BitfieldEntry)
    (j w : Nat) : Prop :=
  ∃ e acc m₁ v m₂, entries[j]? = some e ∧
    (((entries.take j).foldlM (bitfieldStep fuel m.cursor) (0, [])).run c).run m = .ok acc m₁ ∧
    ((evalExpr fuel e.width).run c).run m₁ = .ok v m₂ ∧ v.toUnsigned = .ok w

/-- What a successful build of a bitfield from `m` promises of its node `N`, for the widths
`ws` its entries evaluated to, each where the build reached it: they add up to at most 128
bits, the node starts at the cursor and takes the bytes the bits need, its fields are those
the widths give, each spanning the node's bytes in its byte order, and those bytes lie in the
data. -/
structure BitfieldLaid (fuel : Nat) (c : Context) (m : Machine) (entries : List BitfieldEntry)
    (ws : List Nat) (N : Node) : Prop where
  length : ws.length = entries.length
  widths : ∀ j w, ws[j]? = some w → BitfieldEntry.WidthIs fuel c m entries j w
  total : ws.sum ≤ 128
  offset : N.offset = m.cursor
  size : N.size = (ws.sum + 7) / 8
  fields : N.children.map (fun f => (f.name, f.kind)) =
    (bitfieldFields entries ws).map fun b => (b.name, b.kind)
  span : ∀ f ∈ N.children, f.offset = N.offset ∧ f.size = N.size ∧ f.endian = N.endian
  readable : ∃ bytes, Data.read c.data N.offset N.size = .ok bytes

section Build

variable {c : Context} {m : Machine}

/-- A fold that ran over `l` to `acc` runs over one more element as the step from there. -/
lemma run_foldlM_snoc {β γ : Type} (f : β → γ → Eval β) (b : β) (l : List γ) (a : γ) {acc : β}
    {m₁ : Machine} (h : ((l.foldlM f b).run c).run m = .ok acc m₁) :
    (((l ++ [a]).foldlM f b).run c).run m = ((f acc a).run c).run m₁ := by
  simp only [List.foldlM_append, run_bind, h, List.foldlM_cons, List.foldlM_nil]
  cases ((f acc a).run c).run m₁ <;> rfl

namespace BitfieldEntry.WidthIs

variable {fuel j w : Nat} {entries : List BitfieldEntry}

/-- A width evaluated where the build reached its entry stays so when more entries follow. -/
lemma append (h : WidthIs fuel c m entries j w) (l : List BitfieldEntry) :
    WidthIs fuel c m (entries ++ l) j w := by
  obtain ⟨e, acc, m₁, v, m₂, he, hrun, hv, hw⟩ := h
  have hj : j < entries.length := (List.getElem?_eq_some_iff.mp he).1
  refine ⟨e, acc, m₁, v, m₂, ?_, ?_, hv, hw⟩
  · rw [List.getElem?_append_left hj, he]
  · rwa [List.take_append_of_le_length (Nat.le_of_lt hj)]

/-- The widths after one more entry: those of the entries before it, and its own, evaluated
where the fold over the entries before it ended. -/
lemma snoc {pre : List BitfieldEntry} {ws : List Nat} (hlen : ws.length = pre.length)
    (hws : ∀ j w, ws[j]? = some w → WidthIs fuel c m pre j w) (e : BitfieldEntry)
    {acc : Nat × List Node} {m₁ m₂ : Machine} {v : Value}
    (hrun : ((pre.foldlM (bitfieldStep fuel m.cursor) (0, [])).run c).run m = .ok acc m₁)
    (hv : ((evalExpr fuel e.width).run c).run m₁ = .ok v m₂) (hw : v.toUnsigned = .ok w) :
    ∀ j w', (ws ++ [w])[j]? = some w' → WidthIs fuel c m (pre ++ [e]) j w' := by
  intro j w' hj
  rcases Nat.lt_or_ge j ws.length with hlt | hge
  · rw [List.getElem?_append_left hlt] at hj
    exact (hws j w' hj).append [e]
  · -- past the earlier widths there is only the new entry's
    rw [List.getElem?_append_right hge, List.getElem?_singleton] at hj
    obtain ⟨hj0, rfl⟩ : j - ws.length = 0 ∧ w = w' := by simpa using hj
    obtain rfl : j = pre.length := by omega
    exact ⟨e, acc, m₁, v, m₂, by simp, by rwa [List.take_left], hv, hw⟩

end BitfieldEntry.WidthIs

/-- What the fold has built after the entries `pre`, from `m`: the state it ran to, the widths
the entries evaluated to where it reached them, adding up to the bits taken and at most 128,
and the fields so far, most recent first, at the bitfield's start and in its byte order. -/
def FoldedEntries (fuel : Nat) (c : Context) (m : Machine) (pre : List BitfieldEntry)
    (acc : Nat × List Node) (m' : Machine) : Prop :=
  ((pre.foldlM (bitfieldStep fuel m.cursor) (0, [])).run c).run m = .ok acc m' ∧
    m'.cursor = m.cursor ∧ m'.endian = m.endian ∧ ∃ ws, ws.length = pre.length ∧
    (∀ j w, ws[j]? = some w → BitfieldEntry.WidthIs fuel c m pre j w) ∧
    acc.1 = ws.sum ∧ ws.sum ≤ 128 ∧
    acc.2.reverse.map (fun f => (f.name, f.kind)) =
      (bitfieldFields pre ws).map (fun b => (b.name, b.kind)) ∧
    ∀ f ∈ acc.2, f.offset = m.cursor ∧ f.endian = m.endian

lemma wp_bitfieldStep (fuel : Nat) {pre : List BitfieldEntry} {acc : Nat × List Node}
    {m' : Machine} (e : BitfieldEntry) (h : FoldedEntries fuel c m pre acc m') :
    Wp (bitfieldStep fuel m.cursor acc e) c m' (FoldedEntries fuel c m (pre ++ [e])) := by
  obtain ⟨hrun, hcur, hend, ws, hlen, hws, hoff, hsum, hfields, hat⟩ := h
  -- the fold over `pre` and `e` runs on from where the fold over `pre` ended
  refine ((wp_ran _ c m').and ?_).mono fun acc' m'' h =>
    ⟨(run_foldlM_snoc _ _ pre e hrun).trans h.1, h.2⟩
  obtain ⟨off, fields⟩ := acc
  simp only at hoff hfields hat
  subst hoff
  simp only [bitfieldStep, wp_bind]
  refine wp_evalExpr_run fuel e.width fun v m₁ hv h₁ => ?_
  simp only [wp_lift, wp_ite, wp_fault, wp_pure, wp_newNode, wp_bind]
  intro w hw
  refine ⟨fun _ => trivial, fun hfit => ?_⟩
  -- the entry fits in the bits left
  have hle : ws.sum + w ≤ 128 := by
    simp only [Bool.or_eq_true, decide_eq_true_eq, not_or, not_le, not_lt] at hfit
    omega
  have hwidth := BitfieldEntry.WidthIs.snoc hlen hws e hrun hv hw
  have hsnoc := bitfieldFields_snoc hlen.symm e w
  refine ⟨fun hpad => ?_, fun hpad _ => ?_⟩
  · refine ⟨h₁.cursor.trans hcur, h₁.endian.trans hend, ws ++ [w], by simp [hlen], hwidth,
      by simp, by simpa, ?_, hat⟩
    simp [hsnoc, hpad, hfields]
  · refine ⟨h₁.cursor.trans hcur, h₁.endian.trans hend, ws ++ [w], by simp [hlen], hwidth,
      by simp, by simpa, ?_, fun f hf => ?_⟩
    · simp [hsnoc, hpad, hfields, Node.fresh, FieldBits.kind]
    · rcases List.mem_cons.mp hf with rfl | hf
      · exact ⟨rfl, by simp [h₁.endian, hend]⟩
      · exact hat f hf

/-- A successful build of a bitfield lays it as the widths its entries evaluated to say. -/
theorem buildBitfield_laid (fuel : Nat) (entries : List BitfieldEntry) (name tn : String) :
    Wp (buildBitfield (fuel + 1) entries name tn) c m fun N _ =>
      ∃ ws, BitfieldLaid fuel c m entries ws N := by
  rw [buildBitfield_succ]
  simp only [wp_bind, wp_cursor]
  refine (wp_foldlM_invariant entries _ (FoldedEntries fuel c m) (fun pre e _ acc m' h =>
    wp_bitfieldStep fuel e h) _ m ⟨rfl, rfl, rfl, [], rfl, fun _ _ h => by simp at h, rfl,
      by simp, by simp [bitfieldFields], by simp⟩).mono fun acc m₁ h => ?_
  obtain ⟨bits, fields⟩ := acc
  obtain ⟨-, hcur, hend, ws, hlen, hws, hbits, hsum, hfields, hat⟩ := h
  simp only at hbits hfields hat
  subst hbits
  simp only [wp_checkRange, wp_setCursor, wp_newNode, wp_pure]
  intro hrange _
  refine ⟨ws, hlen, hws, hsum, rfl, by simp [Node.fresh], ?_, fun f hf => ?_, ?_⟩
  · simpa [Node.fresh, Function.comp_def] using hfields
  · obtain ⟨g, hg, rfl⟩ := List.mem_map.mp (by simpa [Node.fresh] using hf)
    obtain ⟨hgo, hge⟩ := hat g hg
    simp [Node.fresh, hgo, hge, hend]
  · exact ⟨_, by simp only [Data.read, Node.fresh]; exact if_pos hrange⟩

/-- One entry whose width evaluates to `w`: too wide for the bits left, or the field made. -/
lemma run_bitfieldStep (fuel start : Nat) {off : Nat} (hoff : off ≤ 128) (fields : List Node)
    (e : BitfieldEntry) {m₁ m₂ : Machine} {v : Value} {w : Nat}
    (hv : ((evalExpr fuel e.width).run c).run m₁ = .ok v m₂) (hw : v.toUnsigned = .ok w) :
    ((bitfieldStep fuel start (off, fields) e).run c).run m₁ =
      if 128 < off + w then .error (EvalError.ofFault .bitfieldTooWide) m₂
      else if e.padding then .ok (off + w, fields) m₂
      else ((do
        let field ← newNode e.name "bits" start 0 (.bitfieldField off w)
        pure (off + w, field :: fields)).run c).run m₂ := by
  simp only [bitfieldStep, run_bind, hv, lift, hw, run_pure]
  by_cases hover : 128 < off + w
  · have hc : (decide (w ≥ 2 ^ 32) || decide (w > 128 - off)) = true := by simp; omega
    rw [if_pos hc, if_pos hover, run_bind, run_fault]
  · -- a width that fits is below `2 ^ 32` too
    have hc : ¬(decide (w ≥ 2 ^ 32) || decide (w > 128 - off)) = true := by simp; omega
    rw [if_neg hc, if_neg hover]
    cases e.padding <;> simp only [Bool.false_eq_true, if_true, if_false, run_bind, run_pure]

/-- The fold over the entries after `pre` stops with `bitfield exceeds 128 bits`, when it starts
where the fold over `pre` ended, `pre`'s widths taking at most 128 bits and all widths more. -/
lemma foldlM_bitfieldStep_tooWide (fuel : Nat) {entries : List BitfieldEntry} {ws : List Nat}
    (hlen : ws.length = entries.length)
    (hws : ∀ j e w, entries[j]? = some e → ws[j]? = some w → ∀ acc m₁,
      (((entries.take j).foldlM (bitfieldStep fuel m.cursor) (0, [])).run c).run m =
        .ok acc m₁ →
      ∃ v m₂, ((evalExpr fuel e.width).run c).run m₁ = .ok v m₂ ∧ v.toUnsigned = .ok w)
    (hW : 128 < ws.sum)
    (hlim : ¬(0 < c.config.maxPatterns ∧ c.config.maxPatterns < m.patterns + entries.length)) :
    ∀ (l pre : List BitfieldEntry) (off : Nat) (fields : List Node) (m₁ : Machine),
      pre ++ l = entries →
      ((pre.foldlM (bitfieldStep fuel m.cursor) (0, [])).run c).run m = .ok (off, fields) m₁ →
      off = (ws.take pre.length).sum → off ≤ 128 → m₁.patterns ≤ m.patterns + pre.length →
      ∃ m', ((l.foldlM (bitfieldStep fuel m.cursor) (off, fields)).run c).run m₁ =
        .error (EvalError.ofFault .bitfieldTooWide) m' := by
  intro l
  induction l with
  | nil =>
    -- every entry has taken its bits, which are more than 128
    intro pre off fields m₁ hpre _ hoff hle _
    rw [List.append_nil] at hpre
    subst hpre
    rw [List.take_of_length_le (by omega)] at hoff
    omega
  | cons e l ih =>
    intro pre off fields m₁ hpre hrun hoff hle hpat
    have hj : pre.length < entries.length := by rw [← hpre]; simp
    have he : entries[pre.length]? = some e := by rw [← hpre]; simp
    obtain ⟨w, hw⟩ : ∃ w, ws[pre.length]? = some w :=
      ⟨ws[pre.length], List.getElem?_eq_getElem (by omega)⟩
    obtain ⟨v, m₂, hv, hvw⟩ := hws pre.length e w he hw _ m₁ (by
      rwa [← hpre, List.take_left])
    have h₂ := ((exprKeepsLayout fuel).evalExpr e.width c m₁ v m₂ hv).patterns
    have hsum : (ws.take (pre.length + 1)).sum = off + w := by
      obtain ⟨hi, rfl⟩ := List.getElem?_eq_some_iff.mp hw
      rw [List.sum_take_succ ws _ hi, hoff]
    have hstep := run_bitfieldStep fuel m.cursor hle fields e hv hvw
    rw [List.foldlM_cons, run_bind]
    by_cases hover : 128 < off + w
    · rw [hstep, if_pos hover]
      exact ⟨_, rfl⟩
    rw [if_neg hover] at hstep
    have hpre' : (pre ++ [e]) ++ l = entries := by simpa using hpre
    -- the entry's step succeeds, and the fold over `pre` and `e` is where the rest starts
    obtain ⟨fields', m₃, hok, hpat'⟩ : ∃ fields' m₃,
        ((bitfieldStep fuel m.cursor (off, fields) e).run c).run m₁ = .ok (off + w, fields') m₃ ∧
          m₃.patterns ≤ m.patterns + (pre.length + 1) := by
      cases hpad : e.padding
      · -- a field: the node limit leaves room for it
        have hroom : ¬(0 < c.config.maxPatterns ∧ c.config.maxPatterns < m₂.patterns + 1) := by
          rw [h₂]; omega
        rw [hpad, if_neg Bool.false_ne_true, run_bind, run_newNode _ _ _ _ _ hroom] at hstep
        exact ⟨_, _, hstep, by simp; omega⟩
      · rw [hpad, if_pos rfl] at hstep
        exact ⟨_, _, hstep, by omega⟩
    have hnext := run_foldlM_snoc _ _ _ e hrun
    rw [hok] at hnext
    rw [hok]
    exact ih (pre ++ [e]) _ _ _ hpre' hnext (by simpa using hsum.symm) (by omega) (by simpa using hpat')

/-- Widths adding up to more than 128 bits stop the build with `bitfield exceeds 128 bits`,
when each entry's width, evaluated where the build reaches the entry, is the given one and the
node limit leaves room for a field of every entry. -/
theorem buildBitfield_tooWide (fuel : Nat) (entries : List BitfieldEntry) (name tn : String)
    (ws : List Nat) (hlen : ws.length = entries.length)
    (hws : ∀ j e w, entries[j]? = some e → ws[j]? = some w → ∀ acc m₁,
      (((entries.take j).foldlM (bitfieldStep fuel m.cursor) (0, [])).run c).run m =
        .ok acc m₁ →
      ∃ v m₂, ((evalExpr fuel e.width).run c).run m₁ = .ok v m₂ ∧ v.toUnsigned = .ok w)
    (hW : 128 < ws.sum)
    (hlim : ¬(0 < c.config.maxPatterns ∧ c.config.maxPatterns < m.patterns + entries.length)) :
    ∃ m', ((buildBitfield (fuel + 1) entries name tn).run c).run m =
      .error (EvalError.ofFault .bitfieldTooWide) m' := by
  obtain ⟨m', h⟩ := foldlM_bitfieldStep_tooWide fuel hlen hws hW hlim entries [] 0 [] m rfl rfl
    (by simp) (by omega) (by omega)
  refine ⟨m', ?_⟩
  simp only [buildBitfield_succ, run_bind, run_cursor, h]

end Build

/-- Bitfields partition their bits from the low bit. A successful build of a bitfield finds the
widths its entries evaluate to, each in the state the build reaches it in, adding up to at most
128 bits; the node starts at the cursor
and takes the bytes the bits need; there is a field for each entry that is not padding, in
declaration order, from the sum of the widths before it (padding included) and as wide as its
width, spanning the bitfield's bytes; and for every data each field reads as its bits of the
word the bitfield's bytes make in its byte order. So the fields' bit ranges are disjoint and
inside the bitfield's bits. Widths adding up to more than 128 bits stop the build with
`bitfield exceeds 128 bits`, when the node limit leaves room for the fields.

**Proof sketch.** The builder folds `bitfieldStep` over the entries; the invariant of the fold
(`FoldedEntries`) records the widths and the fields so far, and the fields' ranges come from
the prefix sums of the widths (`bitfieldFields`). A field reads by `Node.readValue_bitfieldField`
since a bitfield has at most sixteen bytes. Too many bits: the fold runs up to the first entry
that passes 128 bits and stops there (`foldlM_bitfieldStep_tooWide`). -/
theorem bitfieldLaw (fuel : Nat) (entries : List BitfieldEntry) (name tn : String) (c : Context)
    (m : Machine) :
    Wp (buildBitfield (fuel + 1) entries name tn) c m (fun N _ =>
      ∃ ws, BitfieldLaid fuel c m entries ws N ∧
        (∀ f ∈ N.children, ∀ o w, f.kind = .bitfieldField o w → ∀ (d : ByteArray) (e : Endian),
          f.readValue d e = (Data.read d N.offset N.size).map fun bytes =>
            .uint (Word.ofBytes (N.endian.getD e) bytes / 2 ^ o % 2 ^ w)) ∧
        (bitfieldFields entries ws).Pairwise (fun a b => a.offset + a.width ≤ b.offset) ∧
        ∀ b ∈ bitfieldFields entries ws, b.offset + b.width ≤ ws.sum) ∧
    ∀ ws : List Nat, ws.length = entries.length →
      (∀ j e w, entries[j]? = some e → ws[j]? = some w → ∀ acc m₁,
        (((entries.take j).foldlM (bitfieldStep fuel m.cursor) (0, [])).run c).run m =
          .ok acc m₁ →
        ∃ v m₂, ((evalExpr fuel e.width).run c).run m₁ = .ok v m₂ ∧ v.toUnsigned = .ok w) →
      128 < ws.sum →
      ¬(0 < c.config.maxPatterns ∧ c.config.maxPatterns < m.patterns + entries.length) →
      ∃ m', ((buildBitfield (fuel + 1) entries name tn).run c).run m =
        .error (EvalError.ofFault .bitfieldTooWide) m' := by
  refine ⟨(buildBitfield_laid fuel entries name tn).mono fun N _ h => ?_,
    fun ws hlen hws hW hlim => buildBitfield_tooWide fuel entries name tn ws hlen hws hW hlim⟩
  obtain ⟨ws, hL⟩ := h
  refine ⟨ws, hL, fun f hf o w hk d e => ?_, bitfieldFields_ordered entries ws,
    bitfieldFields_inside entries ws⟩
  -- a field spans the bitfield, which has at most sixteen bytes
  obtain ⟨ho, hs, hen⟩ := hL.span f hf
  have h16 : f.size ≤ 16 := by rw [hs, hL.size]; have := hL.total; omega
  rw [Node.readValue_bitfieldField hk h16, ho, hs, hen]

/-- `bitfield B { a : 100; b : 100; }` stops at `b`: its bits pass 128. -/
theorem bitfieldLaw_twoHundredBits :
    128 < [100, 100].sum ∧
      ∃ m', ((buildBitfield 2 [⟨"a", .lit (.int 100) ⟨0, 0, 1⟩, false⟩,
        ⟨"b", .lit (.int 100) ⟨0, 0, 1⟩, false⟩] "x" "B").run
        (Context.of ⟨[], []⟩ (ByteArray.mk #[0, 0]) RunConfig.standard)).run
        (Machine.initial []) = .error (EvalError.ofFault .bitfieldTooWide) m' := by
  refine ⟨by decide, (bitfieldLaw 1 _ "x" "B" _ _).2 [100, 100] rfl ?_ (by decide) (by decide)⟩
  -- each width is a literal, which evaluates wherever the build reaches it
  intro j e w he hw acc m₁ _
  rcases j with _ | _ | j <;> simp at he hw
  all_goals
    subst he hw
    exact ⟨_, _, rfl, rfl⟩

/-- With room for one node, `bitfield B { a : 4; b : 4; c : 200; }` stops at the field `b` on
the node limit, before its 208 bits are found too many. -/
theorem bitfield_nodeLimit_before_tooWide :
    128 < [4, 4, 200].sum ∧
      ∃ m', ((buildBitfield 2 [⟨"a", .lit (.int 4) ⟨0, 0, 1⟩, false⟩,
        ⟨"b", .lit (.int 4) ⟨0, 0, 1⟩, false⟩, ⟨"c", .lit (.int 200) ⟨0, 0, 1⟩, false⟩] "x" "B").run
        (Context.of ⟨[], []⟩ (ByteArray.mk #[0, 0]) { RunConfig.standard with maxPatterns := 1 })).run
        (Machine.initial []) = .error (EvalError.ofFault (.patternLimit 1)) m' :=
  ⟨by decide, _, rfl⟩

end ByteLayout
