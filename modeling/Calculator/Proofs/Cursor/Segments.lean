import Calculator.Cursor

/-!
# Segments

Bytes cut, from the left, into line breaks and what takes one column: the first byte of a character
with the bytes that go on it, and any other byte. Reading some of the bytes leaves a cursor where the
segments say: in the line behind the line breaks that were read, and in the column behind what was
begun in this line (`Cursor.pos_take_eq_after`).
-/

namespace Calculator

/-- Bytes at their place in the input. -/
structure Segment where
  start : Nat
  bytes : Bytes
deriving DecidableEq

namespace Segment

def stop (s : Segment) : Nat := s.start + s.bytes.length

/-- A carriage return and a line feed together, or one of them. -/
def isBreak (s : Segment) : Bool :=
  s.bytes == [0x0d, 0x0a] || s.bytes == [0x0a] || s.bytes == [0x0d]

end Segment

/-- How many of the first `n` bytes, up to another one, lie between 80 and BF. -/
def followingLength (n : Nat) (bytes : Bytes) : Nat :=
  ((bytes.take n).takeWhile fun b => 0x80 ≤ b && b ≤ 0xbf).length

/-- How many bytes belong to the segment that begins with a byte, in front of the others. -/
def tailLength (b : UInt8) (rest : Bytes) : Nat :=
  if b = 0x0d then if rest.head? = some 0x0a then 1 else 0
  else if 0xc0 ≤ b ∧ b ≤ 0xdf then followingLength 1 rest
  else if 0xe0 ≤ b ∧ b ≤ 0xef then followingLength 2 rest
  else if 0xf0 ≤ b ∧ b ≤ 0xf7 then followingLength 3 rest
  else 0

/-- The segment that begins with a byte. -/
def Segment.first (start : Nat) (b : UInt8) (rest : Bytes) : Segment :=
  ⟨start, b :: rest.take (tailLength b rest)⟩

def segmentsFrom (start : Nat) (bytes : Bytes) : List Segment :=
  match bytes with
  | [] => []
  | b :: rest =>
    .first start b rest ::
      segmentsFrom (Segment.first start b rest).stop (rest.drop (tailLength b rest))
termination_by bytes.length
decreasing_by simp only [List.length_drop, List.length_cons]; omega

/-- The segments of an input. -/
def segments (bytes : Bytes) : List Segment := segmentsFrom 0 bytes

/-- What starts at `o` begins inside the first `k` bytes, behind the line breaks that are wholly
inside. -/
def InLastLine (segs : List Segment) (k o : Nat) : Prop :=
  o < k ∧ ∀ s ∈ segs, s.isBreak = true → s.stop ≤ k → s.stop ≤ o

instance (segs : List Segment) (k o : Nat) : Decidable (InLastLine segs k o) :=
  inferInstanceAs (Decidable (_ ∧ _))

/-! ### The lengths of segments -/

theorem followingLength_le (n : Nat) (bytes : Bytes) : followingLength n bytes ≤ bytes.length :=
  Nat.le_trans (List.takeWhile_prefix _).length_le (List.take_prefix _ _).length_le

theorem followingLength_cons (n : Nat) (b : UInt8) (rest : Bytes) :
    followingLength (n + 1) (b :: rest) =
      if Cursor.isContinuation b then followingLength n rest + 1 else 0 := by
  have h : followingLength (n + 1) (b :: rest) =
    ((b :: rest.take n).takeWhile Cursor.isContinuation).length := rfl
  rw [h, List.takeWhile_cons]
  split <;> rfl

theorem tailLength_carriageReturn {rest : Bytes} (h : rest.head? ≠ some 0x0a) :
    tailLength 0x0d rest = 0 := by
  rw [tailLength, if_pos rfl, if_neg h]

theorem tailLength_eq {b : UInt8} {rest : Bytes} (h : b ≠ 0x0d) :
    tailLength b rest = followingLength (Cursor.followers b) rest := by
  rw [tailLength, if_neg h, Cursor.followers]
  repeat' split
  all_goals rfl

theorem tailLength_le (b : UInt8) (rest : Bytes) : tailLength b rest ≤ rest.length := by
  by_cases hb : b = 0x0d
  · subst hb
    cases rest with
    | nil => exact Nat.le_refl _
    | cons c rest =>
      rw [tailLength, if_pos rfl]
      split
      · exact Nat.succ_le_succ (Nat.zero_le _)
      · exact Nat.zero_le _
  · rw [tailLength_eq hb]
    exact followingLength_le _ _

theorem Segment.isBreak_eq_false {o : Nat} {b : UInt8} {tail : Bytes} (hn : b ≠ 0x0a)
    (hr : b ≠ 0x0d) : isBreak ⟨o, b :: tail⟩ = false := by
  simp [isBreak, hn, hr]

theorem Segment.length_first (o : Nat) (b : UInt8) (rest : Bytes) :
    (first o b rest).bytes.length = tailLength b rest + 1 := by
  rw [first, List.length_cons, List.length_take, Nat.min_eq_left (tailLength_le b rest)]

/-! ### The places of segments -/

/-- Each segment takes up bytes, and none begins before the first. -/
theorem start_of_mem_segmentsFrom (o : Nat) (bytes : Bytes) :
    ∀ s ∈ segmentsFrom o bytes, o ≤ s.start ∧ s.start < s.stop := by
  fun_induction segmentsFrom o bytes with
  | case1 => exact nofun
  | case2 o b rest ih =>
    have hf : o < (Segment.first o b rest).stop := Nat.lt_add_of_pos_right (Nat.succ_pos _)
    refine List.forall_mem_cons.mpr ⟨⟨Nat.le_refl _, hf⟩, fun s hs => ?_⟩
    have := ih s hs
    omega

/-! ### Where segments lead -/

namespace Position

/-- The position behind a segment, if `p` is the one in front of it. -/
def past (p : Position) (s : Segment) : Position :=
  if s.isBreak then { p with byte := s.stop, line := p.line + 1, col := 1 }
  else { p with byte := s.stop, col := p.col + 1 }

/-- The position at `k` among segments, if `p` is the one in front of them. -/
def after (p : Position) (segs : List Segment) (k : Nat) : Position :=
  { p with
    byte := k
    line := p.line + segs.countP fun s => s.isBreak && s.stop ≤ k
    col := (if segs.any fun s => s.isBreak && s.stop ≤ k then 1 else p.col) +
      segs.countP fun s => !s.isBreak && InLastLine segs k s.start }

section
variable {p : Position} {s : Segment} {segs : List Segment} {k : Nat}

private theorem not_isBreak_and_stop_le (h : ∀ s ∈ segs, k < s.stop) :
    ∀ s ∈ segs, ¬ (s.isBreak && decide (s.stop ≤ k)) = true := by
  intro s hs
  simp [h s hs]

private theorem countP_inLastLine_eq_zero (h : ∀ s ∈ segs, k ≤ s.start) (all : List Segment) :
    (segs.countP fun s => !s.isBreak && InLastLine all k s.start) = 0 := by
  refine List.countP_eq_zero.mpr fun s hs => ?_
  have : ¬ InLastLine all k s.start := fun hl => Nat.not_lt_of_le (h s hs) hl.1
  simp [this]

/-- Segments that begin later have no influence. -/
theorem after_of_le_start (h : ∀ s ∈ segs, k ≤ s.start ∧ s.start < s.stop) :
    p.after segs k = { p with byte := k } := by
  have hb := not_isBreak_and_stop_le fun s hs => Nat.lt_of_le_of_lt (h s hs).1 (h s hs).2
  rw [after, List.countP_eq_zero.mpr hb, List.any_eq_false.mpr hb,
    countP_inLastLine_eq_zero (fun s hs => (h s hs).1)]
  rfl

/-- In the middle of a segment, this one alone was begun. -/
theorem after_cons_of_lt_stop (hs : s.start < k) (hk : k < s.stop)
    (h : ∀ t ∈ segs, s.stop ≤ t.start ∧ t.start < t.stop) :
    p.after (s :: segs) k =
      if s.isBreak then { p with byte := k } else { p with byte := k, col := p.col + 1 } := by
  have hstop : ∀ t ∈ s :: segs, k < t.stop := by
    refine List.forall_mem_cons.mpr ⟨hk, fun t ht => ?_⟩
    have := h t ht
    omega
  have hb := not_isBreak_and_stop_le hstop
  have hl : InLastLine (s :: segs) k s.start :=
    ⟨hs, fun t ht _ hle => absurd hle (Nat.not_le_of_lt (hstop t ht))⟩
  have hn := countP_inLastLine_eq_zero (fun t ht => Nat.le_trans (Nat.le_of_lt hk) (h t ht).1)
    (s :: segs)
  rw [after, List.countP_eq_zero.mpr hb, List.any_eq_false.mpr hb, List.countP_cons, hn]
  cases s.isBreak <;> simp [hl]

/-- What lies before `o` has no influence on whether `o` is in the last line. -/
private theorem inLastLine_cons {o : Nat} (h : s.isBreak = true → s.stop ≤ k → s.stop ≤ o) :
    InLastLine (s :: segs) k o ↔ InLastLine segs k o := by
  rw [InLastLine, List.forall_mem_cons, and_iff_right h]
  rfl

private theorem countP_inLastLine_cons (h : ∀ t ∈ segs, s.stop ≤ t.start) :
    (segs.countP fun t => !t.isBreak && InLastLine (s :: segs) k t.start) =
      segs.countP fun t => !t.isBreak && InLastLine segs k t.start := by
  refine List.countP_congr fun t ht => ?_
  simp only [inLastLine_cons fun _ _ => h t ht]

/-- What is in front of a line break that is inside is not in the last line. -/
private theorem inLastLine_iff_any {o : Nat} (h : ∀ t ∈ segs, o < t.stop) :
    InLastLine segs k o ↔ o < k ∧ (segs.any fun t => t.isBreak && t.stop ≤ k) = false := by
  refine and_congr_right fun _ => ?_
  simp only [List.any_eq_false, Bool.and_eq_true, decide_eq_true_eq, not_and]
  exact forall₂_congr fun t ht => imp_congr_right fun _ => imp_congr_right fun _ =>
    iff_false_intro (Nat.not_le_of_lt (h t ht))

/-- From a segment that is inside it goes on behind it. -/
theorem after_cons_of_stop_le (hs : s.start < s.stop) (hk : s.stop ≤ k)
    (h : ∀ t ∈ segs, s.stop ≤ t.start ∧ t.start < t.stop) :
    p.after (s :: segs) k = (p.past s).after segs k := by
  have hc := countP_inLastLine_cons (k := k) fun t ht => (h t ht).1
  cases hb : s.isBreak with
  | true =>
    simp only [after, past, List.countP_cons, List.any_cons, hc, hb, hk]
    simp
    omega
  | false =>
    have hl : InLastLine (s :: segs) k s.start ↔
        (segs.any fun t => t.isBreak && t.stop ≤ k) = false := by
      rw [inLastLine_cons (by simp [hb]), inLastLine_iff_any fun t ht => by have := h t ht; omega]
      exact and_iff_right (by omega)
    simp only [after, past, List.countP_cons, List.any_cons, hc, hb, hl]
    cases segs.any fun t => t.isBreak && t.stop ≤ k <;> simp
    omega

end

end Position

/-! ### Reading segments -/

namespace Cursor

theorem take_succ {c d : Cursor} {b : UInt8} (h : c.next? = some (b, d)) (n : Nat) :
    (c.take (n + 1)).2 = (d.take n).2 := by
  simp only [take, h]

theorem take_add (m n : Nat) (c : Cursor) : (c.take (m + n)).2 = ((c.take m).2.take n).2 := by
  induction m generalizing c with
  | zero => rw [Nat.zero_add]; rfl
  | succ m ih =>
    rw [Nat.succ_add]
    cases h : c.next? with
    | none => cases n <;> simp only [take, h]
    | some p => rw [take_succ h, take_succ h, ih]

/-- The next byte starts something new. -/
def Fresh (c : Cursor) : Prop :=
  c.pending = 0 ∨ ∀ b ∈ c.rest.head?, isContinuation b = false

variable {c : Cursor} {b : UInt8} {rest : Bytes}

theorem next?_of_fresh (h : c.Fresh) (hr : c.rest = b :: rest) :
    c.next? = some (b, startWith b rest c.pos) := by
  have hn : ¬ (0 < c.pending ∧ isContinuation b = true) := by
    rintro ⟨hp, hb⟩
    rcases h with h | h
    · omega
    · rw [h b (by rw [hr]; rfl)] at hb
      cases hb
  rw [next?, hr]
  simp only [hn, if_false]

private theorem pos_take_zero (c : Cursor) :
    ∀ k ≤ 0, (c.take k).2.pos = { c.pos with byte := c.pos.byte + k } := by
  rintro _ ⟨⟩
  rfl

/-- Bytes that go on a character move nothing but the byte. -/
theorem take_following (c : Cursor) :
    (∀ k ≤ followingLength c.pending c.rest,
      (c.take k).2.pos = { c.pos with byte := c.pos.byte + k }) ∧
    (c.take (followingLength c.pending c.rest)).2.Fresh := by
  induction hn : c.pending generalizing c with
  | zero => exact ⟨c.pos_take_zero, .inl hn⟩
  | succ n ih =>
    cases hr : c.rest with
    | nil => exact ⟨c.pos_take_zero, .inr (by rw [take_rest, hr]; exact nofun)⟩
    | cons b rest =>
      rw [followingLength_cons]
      split
      · next hb =>
        have hnext : c.next? =
            some (b, { rest, pos := { c.pos with byte := c.pos.byte + 1 }, pending := n }) := by
          rw [next?, hr]
          simp [hn, hb]
        obtain ⟨hpos, hfresh⟩ := ih (c := { rest, pos := _, pending := n }) rfl
        rw [take_succ hnext]
        refine ⟨fun k hk => ?_, hfresh⟩
        cases k with
        | zero => rfl
        | succ k =>
          rw [take_succ hnext, hpos k (Nat.le_of_succ_le_succ hk), Nat.add_assoc, Nat.add_comm 1]
      · next hb =>
        refine ⟨c.pos_take_zero, .inr ?_⟩
        rw [take_rest, hr]
        rintro _ ⟨⟩
        exact Bool.eq_false_iff.mpr hb

/-- Reading a segment leads past it, to something new. -/
structure ReadsSegment (c : Cursor) (s : Segment) : Prop where
  fresh : (c.take s.bytes.length).2.Fresh
  pos_eq : (c.take s.bytes.length).2.pos = c.pos.past s
  part {k : Nat} (h0 : 0 < k) (hk : k < s.bytes.length) : (c.take k).2.pos =
    if s.isBreak then { c.pos with byte := c.pos.byte + k }
    else { c.pos with byte := c.pos.byte + k, col := c.pos.col + 1 }

namespace ReadsSegment

/-- A carriage return and the line feed behind it. -/
theorem pair (h : c.Fresh) (hr : c.rest = 0x0d :: 0x0a :: rest) :
    ReadsSegment c ⟨c.pos.byte, [0x0d, 0x0a]⟩ := by
  have h1 := next?_of_fresh h hr
  have h2 : (startWith 0x0d (0x0a :: rest) c.pos).next? = some (0x0a, _) :=
    next?_of_fresh (.inl rfl) rfl
  constructor
  · simp only [List.length_cons, take_succ h1, take_succ h2]
    exact .inl rfl
  · simp only [List.length_cons, take_succ h1, take_succ h2]
    rfl
  · intro k h0 hk
    obtain rfl : k = 1 := by simp at hk; omega
    rw [take_succ h1]
    rfl

/-- A line feed or a carriage return by itself. -/
theorem single (h : c.Fresh) (hr : c.rest = b :: rest) (hb : b = 0x0a ∨ b = 0x0d)
    (hn : ¬ (b = 0x0d ∧ rest.head? = some 0x0a)) : ReadsSegment c ⟨c.pos.byte, [b]⟩ := by
  have h1 := next?_of_fresh h hr
  simp only [startWith, if_neg hn, if_pos hb] at h1
  constructor
  · rw [List.length_singleton, take_succ h1]
    exact .inl rfl
  · rw [List.length_singleton, take_succ h1]
    rcases hb with rfl | rfl <;> rfl
  · intro k h0 hk
    exact absurd hk (Nat.not_lt_of_le h0)

/-- Any other byte with those that go on it. -/
theorem char (h : c.Fresh) (hr : c.rest = b :: rest) (hb : ¬ (b = 0x0a ∨ b = 0x0d)) :
    ReadsSegment c ⟨c.pos.byte, b :: rest.take (followingLength (followers b) rest)⟩ := by
  have h1 := next?_of_fresh h hr
  have hn : ¬ (b = 0x0d ∧ rest.head? = some 0x0a) := fun hn => hb (.inr hn.1)
  simp only [startWith, if_neg hn, if_neg hb] at h1
  obtain ⟨hpos, hfresh⟩ := take_following
    { rest, pos := { c.pos with byte := c.pos.byte + 1, col := c.pos.col + 1 },
      pending := followers b }
  have hlen : (b :: rest.take (followingLength (followers b) rest)).length =
      followingLength (followers b) rest + 1 := by
    rw [List.length_cons, List.length_take, Nat.min_eq_left (followingLength_le _ _)]
  have hbreak : Segment.isBreak ⟨c.pos.byte, b :: rest.take (followingLength (followers b) rest)⟩ =
      false :=
    Segment.isBreak_eq_false (mt .inl hb) (mt .inr hb)
  constructor
  · rw [hlen, take_succ h1]
    exact hfresh
  · rw [hlen, take_succ h1, hpos _ (Nat.le_refl _), Position.past, hbreak, Segment.stop, hlen,
      Nat.add_right_comm]
    rfl
  · intro k h0 hk
    obtain ⟨k, rfl⟩ := Nat.exists_eq_succ_of_ne_zero (Nat.ne_of_gt h0)
    rw [hlen] at hk
    rw [take_succ h1, hpos k (Nat.le_of_succ_le_succ (Nat.le_of_lt hk)), hbreak, Nat.add_assoc,
      Nat.add_comm 1]
    rfl

end ReadsSegment

theorem readsSegment (h : c.Fresh) (hr : c.rest = b :: rest) :
    ReadsSegment c (.first c.pos.byte b rest) := by
  rw [Segment.first]
  by_cases hb : b = 0x0d
  · subst hb
    by_cases hh : rest.head? = some 0x0a
    · obtain ⟨rest, rfl⟩ := List.head?_eq_some_iff.mp hh
      exact .pair h hr
    · rw [tailLength_carriageReturn hh]
      exact .single h hr (.inr rfl) fun hn => hh hn.2
  · rw [tailLength_eq hb]
    by_cases hb' : b = 0x0a
    · subst hb'
      exact .single h hr (.inl rfl) fun hn => hb hn.1
    · exact .char h hr (not_or.mpr ⟨hb', hb⟩)

/-- Reading leaves a cursor at the position that the segments before it say. -/
theorem pos_take_eq_after (h : c.Fresh) {k : Nat} (hk : k ≤ c.rest.length) :
    (c.take k).2.pos = c.pos.after (segmentsFrom c.pos.byte c.rest) (c.pos.byte + k) := by
  induction hn : c.rest.length using Nat.strongRecOn generalizing c k with
  | ind n ih =>
    cases hr : c.rest with
    | nil =>
      rw [hr] at hk
      obtain rfl := Nat.le_zero.mp hk
      rw [segmentsFrom, Position.after_of_le_start fun _ hs => absurd hs List.not_mem_nil]
      rfl
    | cons b rest =>
      have hs := readsSegment h hr
      have hlen := Segment.length_first c.pos.byte b rest
      rw [segmentsFrom]
      generalize hseg : Segment.first c.pos.byte b rest = s at hs hlen ⊢
      have hstart : s.start = c.pos.byte := hseg ▸ rfl
      have hstop : s.stop = c.pos.byte + s.bytes.length := by rw [Segment.stop, hstart]
      have hlater := start_of_mem_segmentsFrom s.stop (rest.drop (tailLength b rest))
      -- Reading ends in front of or inside the first segment, or goes on behind it.
      rcases Nat.lt_or_ge k s.bytes.length with hlt | hge
      · rcases Nat.eq_zero_or_pos k with rfl | h0
        · rw [Position.after_of_le_start]
          · rfl
          · refine List.forall_mem_cons.mpr ⟨by omega, fun t ht => ?_⟩
            have := hlater t ht
            omega
        · rw [hs.part h0 hlt, Position.after_cons_of_lt_stop (by omega) (by omega) hlater]
      · obtain ⟨k, rfl⟩ := Nat.exists_eq_add_of_le hge
        have hrest : (c.take s.bytes.length).2.rest = rest.drop (tailLength b rest) := by
          rw [take_rest, hr, hlen, List.drop_succ_cons]
        have hbyte : (c.take s.bytes.length).2.pos.byte = s.stop := by
          rw [hs.pos_eq, Position.past]
          split <;> rfl
        have hrec := ih (c.take s.bytes.length).2.rest.length (by
          rw [take_rest, List.length_drop]
          omega) hs.fresh (k := k) (by
          rw [take_rest, List.length_drop]
          omega) rfl
        rw [take_add, hrec, hrest, hbyte, hs.pos_eq, Position.after_cons_of_stop_le (by omega)
          (by omega) hlater, hstop, Nat.add_assoc]

end Cursor

end Calculator
