import Mathlib.Logic.Function.Iterate
import StackMachine.Proofs.Assembly.Layout

/-!
# Nothing is lost

The tokens and errors of a text stand in it one behind another, and what is between them are
blanks and comments that are passed over.  Whatever the text is, scanning takes some of its units in
each round and so comes to its end.
-/

namespace StackMachine

/-- The offset of the last line feed of a text, and -1 if there is none. -/
inductive Text.LastLineFeed (t : Text) : Int → Prop where
  | none (h : lineFeed ∉ t) : LastLineFeed t (-1)
  | some {a b : Text} (ht : t = a ++ lineFeed :: b) (hb : lineFeed ∉ b) : LastLineFeed t a.length

namespace Assembly

/-- The column behind a text is the distance to its last line feed. -/
theorem Place.exists_column (t : Text) :
  ∃ k, t.LastLineFeed k ∧ ((start.after t).column : Int) = t.length - k
  := by
  obtain ⟨a, b, rfl, ha, hb⟩ := Text.exists_endsLine_append t
  have hcolumn : (start.after (a ++ b)).column = b.length + 1 := by
    rw [after_append, after_of_not_mem hb, advance, column_after ha]
    apply Nat.add_comm
  rw [hcolumn, List.length_append]
  rcases ha with rfl | hlast
  · refine ⟨-1, .none hb, ?_⟩
    simp only [List.length_nil]
    omega
  · obtain ⟨a, rfl⟩ := List.getLast?_eq_some_iff.mp hlast
    refine ⟨a.length, .some (List.append_assoc _ _ _) hb, ?_⟩
    simp only [List.length_append, List.length_singleton]
    omega

/-! ### What is passed over -/

/-- Units that are passed over before a rest: blanks up to what is no blank, or a comment up to the
end of its line. -/
inductive PassedOver : Text → Text → Prop where
  | blanks {w rest : Text} (hw : IsBlanks w) (hrest : Text.Stops Lexeme.isBlank rest) :
    PassedOver w rest
  | comment {w rest : Text} (hw : IsComment w)
    (hrest : Text.Stops (fun u => !Lexeme.isLineEnd u) rest) : PassedOver w rest

/-- What begins with a unit and is no token is passed over. -/
theorem passedOver_of_ofText? {u : CodeUnit} {r : Text} {x : Lexeme} {n : Nat}
    (h : Lexeme.ofText? u r = some (x, n)) (hx : ∀ k, x ≠ .token k) :
  PassedOver (u :: r.take n) (r.drop n)
  := by
  have hconsists := Lexeme.consists_of_ofText? h
  generalize hv : r.take n = v at hconsists
  cases hconsists with
  | blank hu hv =>
    apply PassedOver.blanks (List.forall_mem_cons.mpr ⟨hu, hv⟩)
    rw [Lexeme.ofText?, if_pos hu] at h
    cases h
    apply Lexeme.stops_drop_takeWhile
  | comment hv => exact .comment ⟨rfl, hv⟩ (Lexeme.stops_of_comment h)
  | _ => cases hx _ rfl

namespace Lexed

/-! ### Stretches -/

/-- The place where something stands. -/
def place : Lexed → Place
  | token t => t.place
  | error e => e.place

/-- The number of units that something takes up. -/
def length : Lexed → Nat
  | token t => t.image.length
  | error e => e.length

/-- The offset behind the last unit. -/
def stop (y : Lexed) : Nat := y.place.offset + y.length

/-- A unit belongs to something. -/
def Covers (y : Lexed) (i : Nat) : Prop := y.place.offset ≤ i ∧ i < y.stop

/-- The units of a text from the first to the last of something. -/
def units (y : Lexed) (s : Text) : Text := (s.take y.stop).drop y.place.offset

theorem Stands.place {y : Lexed} {q : Place} {w rest : Text} (h : y.Stands q w rest) :
  y.place = q
  := by
  cases h <;> rfl

theorem Stands.length {y : Lexed} {q : Place} {w rest : Text} (h : y.Stands q w rest) :
  y.length = w.length
  := by
  cases h <;> rfl

theorem Stands.offset {y : Lexed} {a w rest : Text} (h : y.Stands (Place.start.after a) w rest) :
  y.place.offset = a.length
  := by
  rw [h.place, Place.offset_after]
  exact Nat.zero_add _

/-- What stands behind a text has the units that follow it. -/
theorem Stands.units {y : Lexed} {a w rest : Text} (h : y.Stands (Place.start.after a) w rest) :
  y.units (a ++ w ++ rest) = w
  := by
  rw [Lexed.units, stop, h.offset, h.length, ← List.length_append, List.take_left, List.drop_left]

/-! ### One behind another -/

/-- From an offset on a text is cut into what is passed over and what is found. -/
inductive Tiles : Nat → Text → List Lexed → Prop where
  | nil {n : Nat} : Tiles n [] []
  | passed {n : Nat} {w rest : Text} {ys : List Lexed} (hw : PassedOver w rest)
    (h : Tiles (n + w.length) rest ys) : Tiles n (w ++ rest) ys
  | found {n : Nat} {w rest : Text} {y : Lexed} {ys : List Lexed} (hy : y.place.offset = n)
    (hlength : y.length = w.length) (h : Tiles (n + w.length) rest ys) :
    Tiles n (w ++ rest) (y :: ys)

/-- What scanning yields stands in the text without gaps, but for what is passed over. -/
theorem tiles_scan (p : Place) (s : Text) :
  Tiles p.offset s (scan p s)
  := by
  fun_induction scan p s with
  | case1 => exact .nil
  | case2 p u r n kind h rest ih =>
    obtain ⟨hcut, hplace⟩ := cut_of_ofText? h p
    have hoffset := congrArg Place.offset hplace
    rw [Place.offset_after] at hoffset
    rw [hoffset] at ih
    rw [hcut]
    exact .found rfl rfl ih
  | case3 p u r x n h rest hx ih =>
    obtain ⟨hcut, hplace⟩ := cut_of_ofText? h p
    have hoffset := congrArg Place.offset hplace
    rw [Place.offset_after] at hoffset
    rw [hoffset] at ih
    rw [hcut]
    exact .passed (passedOver_of_ofText? h hx) ih
  | case4 p u r h n ih =>
    obtain ⟨hcut, hplace, -⟩ := cut_of_ofText?_none h p
    have hoffset := congrArg Place.offset hplace
    rw [Place.offset_after] at hoffset
    rw [hoffset] at ih
    rw [hcut]
    refine .found rfl ?_ ih
    rw [List.length_cons, List.length_take_of_le (Lexeme.length_junk r)]
    rfl

theorem Tiles.le {n : Nat} {s : Text} {ys : List Lexed} (h : Tiles n s ys) :
  ∀ y ∈ ys, n ≤ y.place.offset
  := by
  induction h with
  | nil => rintro _ ⟨⟩
  | passed _ _ ih =>
    intro y hy
    have := ih y hy
    omega
  | found hy _ _ ih =>
    intro z hz
    rcases List.mem_cons.mp hz with rfl | hz
    · exact hy.ge
    · have := ih z hz
      omega

/-- What is found later stands behind what is found before. -/
theorem Tiles.pairwise {n : Nat} {s : Text} {ys : List Lexed} (h : Tiles n s ys) :
  ys.Pairwise fun y z => y.stop ≤ z.place.offset
  := by
  induction h with
  | nil => apply List.Pairwise.nil
  | passed _ _ ih => exact ih
  | found hy hlength h ih =>
    apply List.Pairwise.cons _ ih
    rw [stop, hy, hlength]
    exact h.le

/-- A unit of a text that begins at an offset is passed over, with others among which nothing is
found. -/
def IsPassedOver (n : Nat) (s : Text) (ys : List Lexed) (i : Nat) : Prop :=
  ∃ a w b, s = a ++ w ++ b ∧ n + a.length ≤ i ∧ i < n + a.length + w.length ∧ PassedOver w b
    ∧ ∀ y ∈ ys, y.stop ≤ n + a.length ∨ n + a.length + w.length ≤ y.place.offset

/-- A unit that is passed over is so if other units stand before the text, and what is found among
them. -/
theorem IsPassedOver.append {n i : Nat} {s w : Text} {ys : List Lexed}
    (h : IsPassedOver (n + w.length) s ys i) (zs : List Lexed)
    (hzs : ∀ z ∈ zs, z.stop ≤ n + w.length) :
  IsPassedOver n (w ++ s) (zs ++ ys) i
  := by
  obtain ⟨a, v, b, rfl, hle, hlt, hv, hys⟩ := h
  have hlength : n + (w ++ a).length = n + w.length + a.length := by
    rw [List.length_append, Nat.add_assoc]
  refine ⟨w ++ a, v, b, ?_, ?_, ?_, hv, ?_⟩
  · rw [List.append_assoc, List.append_assoc, List.append_assoc]
  · rwa [hlength]
  · rwa [hlength]
  · rw [hlength]
    apply List.forall_mem_append.mpr ⟨_, hys⟩
    intro z hz
    have := hzs z hz
    omega

/-- Every unit that does not belong to what is found is passed over. -/
theorem Tiles.isPassedOver {n i : Nat} {s : Text} {ys : List Lexed} (h : Tiles n s ys)
    (hle : n ≤ i) (hlt : i < n + s.length) (hi : ∀ y ∈ ys, ¬ y.Covers i) :
  IsPassedOver n s ys i
  := by
  induction h with
  | nil => exact absurd hle (Nat.not_le.mpr hlt)
  | @passed n w rest ys hw h ih =>
    rw [List.length_append, ← Nat.add_assoc] at hlt
    by_cases hfirst : i < n + w.length
    · refine ⟨[], w, rest, rfl, hle, hfirst, hw, ?_⟩
      intro y hy
      exact .inr (h.le y hy)
    · exact (ih (Nat.not_lt.mp hfirst) hlt hi).append [] nofun
  | @found n w rest y ys hy hlength h ih =>
    rw [List.length_append, ← Nat.add_assoc] at hlt
    obtain ⟨hnot, hi⟩ := List.forall_mem_cons.mp hi
    have hstop : y.stop = n + w.length := by rw [stop, hy, hlength]
    rw [Covers, hy, hstop] at hnot
    apply (ih (by omega) hlt hi).append [y]
    intro z hz
    rw [List.mem_singleton.mp hz, hstop]

/-! ### Rounds -/

/-- The scanner between two rounds: its place, what is left of the text, and what has been found. -/
structure Scanner where
  place : Place
  rest : Text
  found : List Lexed

/-- A round takes a lexeme from the head of what is left, or units that begin nothing. -/
def Scanner.round (x : Scanner) : Scanner :=
  match x.rest with
  | [] => x
  | u :: r =>
    match Lexeme.ofText? u r with
    | some (.token kind, n) =>
      ⟨(Lexeme.token kind).placeAfter x.place (n + 1), r.drop n,
        x.found ++ [.token ⟨kind, u :: r.take n, x.place⟩]⟩
    | some (lexeme, n) => ⟨lexeme.placeAfter x.place (n + 1), r.drop n, x.found⟩
    | none =>
      let n := Lexeme.junk r
      ⟨x.place.advance (n + 1), r.drop n, x.found ++ [.error ⟨u, x.place, n + 1⟩]⟩

/-- What the scanner has when it comes to the end of the text. -/
def Scanner.finish (x : Scanner) : Scanner :=
  ⟨x.place.after x.rest, [], x.found ++ scan x.place x.rest⟩

/-- A round does not change what the scanner has in the end. -/
theorem Scanner.finish_round (x : Scanner) :
  x.round.finish = x.finish
  := by
  obtain ⟨p, s, found⟩ := x
  cases s with
  | nil => rfl
  | cons u r =>
    cases h : Lexeme.ofText? u r with
    | none =>
      obtain ⟨hcut, hplace, -⟩ := cut_of_ofText?_none h p
      have hafter := Place.after_append p (u :: r.take (Lexeme.junk r)) (r.drop (Lexeme.junk r))
      rw [← hcut] at hafter
      simp only [round, finish, h, scan, List.append_assoc]
      rw [hplace, hafter]
      rfl
    | some y =>
      obtain ⟨lexeme, n⟩ := y
      obtain ⟨hcut, hplace⟩ := cut_of_ofText? h p
      have hafter := Place.after_append p (u :: r.take n) (r.drop n)
      rw [← hcut, ← hplace] at hafter
      cases lexeme with
      | token kind =>
        simp only [round, finish, h, scan, List.append_assoc, hafter]
        rfl
      | blank | comment => simp only [round, finish, h, scan, hafter]

/-- A round takes at least one unit, if there is one. -/
theorem Scanner.length_round (x : Scanner) :
  x.round.rest.length ≤ x.rest.length - 1
  := by
  obtain ⟨p, s, found⟩ := x
  cases s with
  | nil => apply Nat.le_refl
  | cons u r =>
    have hdrop (n : Nat) : (r.drop n).length ≤ r.length := by
      rw [List.length_drop]
      apply Nat.sub_le
    rw [round.eq_def]
    simp only [List.length_cons, Nat.add_sub_cancel]
    split <;> apply hdrop

/-- After as many rounds as there are units nothing is left, and what has been found is what scanning
yields. -/
theorem Scanner.iterate_round {n : Nat} {x : Scanner} (h : x.rest.length ≤ n) :
  round^[n] x = x.finish
  := by
  induction n generalizing x with
  | zero =>
    obtain ⟨p, s, found⟩ := x
    obtain rfl := List.length_eq_zero_iff.mp (Nat.le_zero.mp h)
    rw [finish, scan, List.append_nil]
    rfl
  | succ n ih =>
    have := x.length_round
    rw [Function.iterate_succ_apply, ih (by omega), finish_round]

end Lexed

/-! ### Texts -/

/-- What is found in a text, and what is not. -/
structure Accounts (s : Text) (ys : List Lexed) : Prop where
  /-- One stands behind another. -/
  ordered : ys.Pairwise fun y z => y.stop ≤ z.place.offset
  /-- Nothing is empty, or stands behind the text. -/
  inside : ∀ y ∈ ys, y.place.offset < y.stop ∧ y.stop ≤ s.length
  /-- What belongs to nothing is passed over. -/
  passedOver : ∀ i < s.length, (∀ y ∈ ys, ¬ y.Covers i) → Lexed.IsPassedOver 0 s ys i
  /-- A token has the text that stands there. -/
  image : ∀ t, .token t ∈ ys → (Lexed.token t).units s = t.image
  /-- An error is told by its first unit, and is on one line. -/
  error : ∀ e, .error e ∈ ys →
    ((Lexed.error e).units s).head? = some e.unit ∧ Text.lineFeed ∉ (Lexed.error e).units s
  /-- The line is told by the line feeds before it. -/
  line : ∀ y ∈ ys, y.place.line = (s.take y.place.offset).count Text.lineFeed + 1
  /-- The column is the distance to the last of them. -/
  column : ∀ y ∈ ys, ∃ k, Text.LastLineFeed (s.take y.place.offset) k
    ∧ (y.place.column : Int) = y.place.offset - k

/-- Nothing of a text is lost: tokens and errors stand in it in their order, at their places, and all
other units are passed over.  Whatever the text is, scanning comes to its end, after as many rounds
as it has units. -/
theorem scan_accounts (s : Text) :
  Accounts s (Lexed.scan .start s)
    ∧ Lexed.Scanner.round^[s.length] ⟨.start, s, []⟩
      = ⟨Place.start.after s, [], Lexed.scan .start s⟩
  := by
  have htiles := Lexed.tiles_scan .start s
  constructor
  · constructor
    · exact htiles.pairwise
    · intro y hy
      obtain ⟨a, v, b, rfl, hstands⟩ := Lexed.exists_stands y hy
      have hpos := List.length_pos_iff.mpr hstands.ne_nil
      rw [Lexed.stop, hstands.length, hstands.offset, List.length_append, List.length_append]
      omega
    · intro i hi hnot
      apply htiles.isPassedOver (Nat.zero_le i) _ hnot
      rwa [Place.start, Nat.zero_add]
    · intro t ht
      obtain ⟨a, v, b, rfl, hstands⟩ := Lexed.exists_stands _ ht
      rw [hstands.units]
      cases hstands
      rfl
    · intro e he
      obtain ⟨a, v, b, rfl, hstands⟩ := Lexed.exists_stands _ he
      rw [hstands.units]
      cases hstands with
      | error hskips => exact ⟨rfl, hskips.lineFeed_not_mem⟩
    · intro y hy
      obtain ⟨a, v, b, rfl, hstands⟩ := Lexed.exists_stands y hy
      rw [hstands.offset, hstands.place, Place.line_after, List.append_assoc, List.take_left]
      apply Nat.add_comm
    · intro y hy
      obtain ⟨a, v, b, rfl, hstands⟩ := Lexed.exists_stands y hy
      obtain ⟨k, hk, hcolumn⟩ := Place.exists_column a
      use k
      rw [hstands.offset, hstands.place, List.append_assoc, List.take_left]
      exact ⟨hk, hcolumn⟩
  · exact Lexed.Scanner.iterate_round (Nat.le_refl _)

end Assembly

end StackMachine
