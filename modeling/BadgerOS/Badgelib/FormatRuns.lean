import Mathlib.Data.List.TakeWhile
import BadgerOS.Badgelib.FormatStr

/-!
# Termination of the formatter and the text between the specifiers

A message is a sequence of pieces (`Reads`): maximal runs of text without a percent sign, pairs
of percent signs, format specifiers, and possibly a malformed specifier, which ends the sequence
and takes the rest of the message.

**Deviation.** A percent sign among the last three characters of the message that is not
followed by another one starts none of these pieces. `format_str_va` treats it as normal text,
finds that the run of text up to the next percent sign is empty, and goes on at the same place
for ever (`formatStrVa_lonePercent`), unless the callback returns false.

* `formatStrVa_verbatim_iff`: `format_str_va` ends for all callbacks and gives every run of text
  to the callback once, in order and as it is, if and only if the message can be read as a
  sequence of pieces. The arrays in the arguments that have no length end with a zero.
-/

namespace BadgerOS.Format

open List Option

/-! ## Pieces of a message -/

/-- A piece of a message. -/
inductive Piece
  /-- A run of text. -/
  | run (text : Text)
  /-- Two percent signs. -/
  | percent
  /-- A specifier with its source text. -/
  | specifier (source : Text) (s : Specifier)
  /-- What starts with a malformed specifier. -/
  | malformed (text : Text)
  deriving DecidableEq, Repr

/-- The text starts with a percent sign that stands for itself alone, and there is room for a
    specifier. -/
structure Starts (text : Text) : Prop where
  percent : charAt text 0 = percentSign
  room : 3 < text.length
  single : charAt text 1 ≠ percentSign

/-- A message and its pieces. The runs of text are maximal. -/
inductive Reads : Text → List Piece → Prop
  | nil : Reads [] []
  | run {text rest pieces} : text ≠ [] → percentSign ∉ text →
      rest = [] ∨ charAt rest 0 = percentSign → Reads rest pieces →
      Reads (text ++ rest) (.run text :: pieces)
  | percent {rest pieces} : Reads rest pieces →
      Reads (percentSign :: percentSign :: rest) (.percent :: pieces)
  | specifier {text s fmtEnd pieces} : Starts text → parseSpecifier text = some (s, fmtEnd) →
      Reads (text.drop (fmtEnd + 1)) pieces →
      Reads text (.specifier (text.take (fmtEnd + 1)) s :: pieces)
  | malformed {text} : Starts text → parseSpecifier text = none →
      Reads text [.malformed text]

/-- A callback that accepts everything. -/
def acceptAll (_ : List Text) : Bool := true

/-- The chunks of the pieces. A run of text is one chunk. -/
inductive Outputs (mem : ℕ → UInt8) : List Piece → List ℕ → List Text → Prop
  | nil {args} : Outputs mem [] args []
  | run {text pieces args out} : Outputs mem pieces args out →
      Outputs mem (.run text :: pieces) args (text :: out)
  | percent {pieces args out} : Outputs mem pieces args out →
      Outputs mem (.percent :: pieces) args ([percentSign] :: out)
  | specifier {source s pieces args rest fuel chunks out} :
      emitSpecifier acceptAll mem fuel s args ⟨[], true⟩ = some (⟨chunks, true⟩, rest) →
      Outputs mem pieces rest out →
      Outputs mem (.specifier source s :: pieces) args (chunks ++ out)
  | malformed {text args} : Outputs mem [.malformed text] args [text]

/-- The arguments of a specifier. -/
def Specifier.argCount (s : Specifier) : ℕ :=
  match s.mult with
  | .arr => 2
  | .nul | .one => 1

/-- The arrays among the arguments that have no length end with a zero. -/
def ArgsValid (mem : ℕ → UInt8) : List Piece → List ℕ → Prop
  | [], _ => True
  | .specifier _ s :: pieces, args =>
    (s.mult = .nul → ∃ i, fmtTypeIndex s.type mem (args.headD 0) i = 0) ∧
      ArgsValid mem pieces (args.drop s.argCount)
  | _ :: pieces, args => ArgsValid mem pieces args

/-- The formatter ends for all callbacks, and gives the pieces of the message to a callback that
    accepts them. A message without percent signs is output as it is. -/
structure FormatsVerbatim (mem : ℕ → UInt8) (msg : Text) (args : List ℕ) : Prop where
  ends : ∀ accept, ∃ fuel result, formatStrVa accept mem fuel msg args = some result
  verbatim : ∃ pieces out, Reads msg pieces ∧ Outputs mem pieces args out ∧
    ∃ fuel, formatStrVa acceptAll mem fuel msg args = some (true, out)
  plain : percentSign ∉ msg →
    ∃ fuel out, formatStrVa acceptAll mem fuel msg args = some (true, out) ∧ out.flatten = msg

/-! ## Fuel -/

section

variable {accept : List Text → Bool} {mem : ℕ → UInt8} {fuel fuel' : ℕ}

theorem nulLength_mono {type : FmtType} {ptr length : ℕ} (hle : fuel ≤ fuel')
    (h : nulLength type mem ptr fuel = some length) :
    nulLength type mem ptr fuel' = some length := by
  obtain ⟨k, rfl⟩ := Nat.exists_eq_add_of_le hle
  rw [nulLength, range_add, find?_append]
  rw [nulLength] at h
  rw [h, some_or]

theorem exists_nulLength {type : FmtType} {ptr i : ℕ} (h : fmtTypeIndex type mem ptr i = 0) :
    ∃ fuel length, nulLength type mem ptr fuel = some length := by
  have hsome : (nulLength type mem ptr (i + 1)).isSome = true := by
    rw [nulLength, find?_isSome]
    exact ⟨i, mem_range.2 (Nat.lt_succ_self i), decide_eq_true h⟩
  exact ⟨i + 1, isSome_iff_exists.1 hsome⟩

variable {args : List ℕ} {s : Specifier} {sink : Sink} {text : Text} {result : Bool × List Text}
  {pieces : List Piece}

theorem emitSpecifier_mono {result : Sink × List ℕ} (hle : fuel ≤ fuel')
    (h : emitSpecifier accept mem fuel s args sink = some result) :
    emitSpecifier accept mem fuel' s args sink = some result := by
  unfold emitSpecifier at h ⊢
  cases hmult : s.mult with
  | one | arr =>
    rw [hmult] at h
    exact h
  | nul =>
    rw [hmult] at h
    simp only [map_eq_some_iff] at h ⊢
    obtain ⟨length, hlength, hresult⟩ := h
    exact ⟨length, nulLength_mono hle hlength, hresult⟩

/-- What a round does that gives a chunk to the callback and goes on. -/
def Sink.andThen (sink : Sink) (next : Sink → Option (Bool × List Text)) :
    Option (Bool × List Text) :=
  if sink.ok then next sink else some (false, sink.out)

theorem formatLoop_nil (fuel : ℕ) (args : List ℕ) (sink : Sink) :
    formatLoop accept mem (fuel + 1) [] args sink = some (true, sink.out) := by
  rw [formatLoop, if_pos rfl]

theorem formatLoop_percent (fuel : ℕ) (rest : Text) (args : List ℕ) (sink : Sink) :
    formatLoop accept mem (fuel + 1) (percentSign :: percentSign :: rest) args sink =
      (sink.emit accept [percentSign]).andThen (formatLoop accept mem fuel rest args) := by
  rw [formatLoop, if_neg (cons_ne_nil _ _), if_pos ⟨rfl, by simp, rfl⟩]
  rfl

theorem Starts.ne_nil (h : Starts text) : text ≠ [] := by
  rintro rfl
  exact absurd h.room (by simp)

theorem formatLoop_malformed (hstarts : Starts text) (hparse : parseSpecifier text = none)
    (fuel : ℕ) (args : List ℕ) (sink : Sink) : formatLoop accept mem (fuel + 1) text args sink =
      some ((sink.emit accept text).ok, (sink.emit accept text).out) := by
  rw [formatLoop, if_neg hstarts.ne_nil, if_neg fun h => hstarts.single h.2.2,
    if_pos ⟨hstarts.percent, hstarts.room⟩]
  simp only [hparse]

theorem formatLoop_specifier (hstarts : Starts text) {fmtEnd : ℕ}
    (hparse : parseSpecifier text = some (s, fmtEnd)) (fuel : ℕ) (args : List ℕ) (sink : Sink) :
    formatLoop accept mem (fuel + 1) text args sink =
      (emitSpecifier accept mem fuel s args sink).bind fun (sink, args) =>
        sink.andThen (formatLoop accept mem fuel (text.drop (fmtEnd + 1)) args) := by
  rw [formatLoop, if_neg hstarts.ne_nil, if_neg fun h => hstarts.single h.2.2,
    if_pos ⟨hstarts.percent, hstarts.room⟩]
  simp only [hparse]
  cases emitSpecifier accept mem fuel s args sink <;> rfl

/-- Text that starts neither with two percent signs nor with a specifier, well-formed or not. -/
def Plain (text : Text) : Prop :=
  charAt text 0 = percentSign → charAt text 1 ≠ percentSign ∧ text.length ≤ 3

theorem formatLoop_text (hne : text ≠ []) (hplain : Plain text) (fuel : ℕ) (args : List ℕ)
    (sink : Sink) : formatLoop accept mem (fuel + 1) text args sink =
      (sink.emit accept (text.takeWhile (· ≠ percentSign))).andThen
        (formatLoop accept mem fuel (text.dropWhile (· ≠ percentSign)) args) := by
  rw [formatLoop, if_neg hne, if_neg fun h => (hplain h.1).1 h.2.2,
    if_neg fun h => absurd (hplain h.1).2 (by omega)]
  rfl

theorem text_cases (text : Text) : text = [] ∨ (∃ rest, text = percentSign :: percentSign :: rest) ∨ Starts text ∨
      (text ≠ [] ∧ Plain text) := by
  match text with
  | [] => exact .inl rfl
  | [c] =>
    have hnone : charAt [c] 1 ≠ percentSign := by
      rw [show charAt [c] 1 = 0 from rfl]
      decide
    exact .inr (.inr (.inr ⟨by simp, fun _ => ⟨hnone, by simp⟩⟩))
  | c :: d :: rest =>
    by_cases hc : c = percentSign
    · by_cases hd : d = percentSign
      · exact .inr (.inl ⟨rest, by rw [hc, hd]⟩)
      · by_cases hroom : 3 < (c :: d :: rest).length
        · exact .inr (.inr (.inl ⟨hc, hroom, hd⟩))
        · exact .inr (.inr (.inr ⟨by simp, fun _ => ⟨hd, by omega⟩⟩))
    · exact .inr (.inr (.inr ⟨by simp, fun h => absurd h hc⟩))

theorem andThen_mono {next next' : Sink → Option (Bool × List Text)}
    (hnext : ∀ sink, next sink = some result → next' sink = some result)
    (h : sink.andThen next = some result) : sink.andThen next' = some result := by
  unfold Sink.andThen at h ⊢
  split at h
  · rename_i hok
    rw [if_pos hok]
    exact hnext sink h
  · rename_i hok
    rw [if_neg hok]
    exact h

theorem formatLoop_succ (h : formatLoop accept mem fuel text args sink = some result) :
    formatLoop accept mem (fuel + 1) text args sink = some result := by
  induction fuel generalizing text args sink with
  | zero => contradiction
  | succ fuel ih =>
    rcases text_cases text with rfl | ⟨rest, rfl⟩ | hstarts | ⟨hne, hplain⟩
    · rw [formatLoop_nil] at h ⊢
      exact h
    · rw [formatLoop_percent] at h ⊢
      exact andThen_mono (fun _ => ih) h
    · cases hparse : parseSpecifier text with
      | none =>
        rw [formatLoop_malformed hstarts hparse] at h ⊢
        exact h
      | some parsed =>
        obtain ⟨s, fmtEnd⟩ := parsed
        rw [formatLoop_specifier hstarts hparse] at h ⊢
        obtain ⟨emitted, hemit, hnext⟩ := bind_eq_some_iff.1 h
        rw [emitSpecifier_mono (Nat.le_succ fuel) hemit]
        exact andThen_mono (fun _ => ih) hnext
    · rw [formatLoop_text hne hplain] at h ⊢
      exact andThen_mono (fun _ => ih) h

theorem formatLoop_mono (hle : fuel ≤ fuel') (h : formatLoop accept mem fuel text args sink = some result) :
    formatLoop accept mem fuel' text args sink = some result := by
  induction fuel', hle using Nat.le_induction with
  | base => exact h
  | succ fuel' _ ih => exact formatLoop_succ ih

/-! ## The end of the loop -/

theorem exists_emitSpecifier
    (hvalid : s.mult = .nul → ∃ i, fmtTypeIndex s.type mem (args.headD 0) i = 0) :
    ∃ fuel, ∀ accept sink, ∃ emitted,
      emitSpecifier accept mem fuel s args sink = some (emitted, args.drop s.argCount) := by
  unfold emitSpecifier Specifier.argCount
  cases hmult : s.mult with
  | one => exact ⟨0, fun accept sink => ⟨_, rfl⟩⟩
  | arr =>
    refine ⟨0, fun accept sink => ?_⟩
    simp only
    split_ifs <;> exact ⟨_, rfl⟩
  | nul =>
    obtain ⟨i, hi⟩ := hvalid hmult
    obtain ⟨fuel, length, hlength⟩ := exists_nulLength hi
    refine ⟨fuel, fun accept sink => ?_⟩
    simp only [hlength, map_some]
    split_ifs <;> exact ⟨_, rfl⟩

theorem run_split {rest : Text} (hne : text ≠ []) (hrun : percentSign ∉ text)
    (hrest : rest = [] ∨ charAt rest 0 = percentSign) :
    text ++ rest ≠ [] ∧ Plain (text ++ rest) ∧ (text ++ rest).takeWhile (· ≠ percentSign) = text ∧
      (text ++ rest).dropWhile (· ≠ percentSign) = rest := by
  have hall : ∀ c ∈ text, decide (c ≠ percentSign) = true := fun c hc =>
    decide_eq_true fun heq => hrun (heq ▸ hc)
  have hstop : rest.takeWhile (· ≠ percentSign) = [] ∧ rest.dropWhile (· ≠ percentSign) = rest := by
    rcases rest with _ | ⟨c, rest⟩
    · exact ⟨rfl, rfl⟩
    · have hc : c = percentSign := hrest.resolve_left (cons_ne_nil _ _)
      simp [hc]
  obtain ⟨c, text', rfl⟩ := exists_cons_of_ne_nil hne
  refine ⟨by simp, fun h => ?_, ?_, ?_⟩
  · exact absurd (h ▸ mem_cons_self) hrun
  · rw [takeWhile_append_of_pos hall, hstop.1, append_nil]
  · rw [dropWhile_append_of_pos hall, hstop.2]

theorem andThen_exists {next : Sink → Option (Bool × List Text)}
    (h : ∃ result, next sink = some result) : ∃ result, sink.andThen next = some result := by
  unfold Sink.andThen
  cases sink.ok with
  | true => exact h
  | false => exact ⟨_, rfl⟩

theorem Reads.ends (h : Reads text pieces) (hvalid : ArgsValid mem pieces args) (sink : Sink) :
    ∃ fuel result, formatLoop accept mem fuel text args sink = some result := by
  induction h generalizing args sink with
  | nil => exact ⟨1, _, formatLoop_nil 0 args sink⟩
  | @run text rest pieces hne hrun hrest _ ih =>
    obtain ⟨happ, hplain, htake, hdrop⟩ := run_split hne hrun hrest
    obtain ⟨fuel, hnext⟩ := ih hvalid (sink.emit accept text)
    obtain ⟨result, hresult⟩ := andThen_exists hnext
    refine ⟨fuel + 1, result, ?_⟩
    rw [formatLoop_text happ hplain, htake, hdrop]
    exact hresult
  | @percent rest pieces _ ih =>
    obtain ⟨fuel, hnext⟩ := ih hvalid (sink.emit accept [percentSign])
    obtain ⟨result, hresult⟩ := andThen_exists hnext
    exact ⟨fuel + 1, result, (formatLoop_percent fuel rest args sink).trans hresult⟩
  | @specifier text s fmtEnd pieces hstarts hparse _ ih =>
    obtain ⟨fuel1, hemit⟩ := exists_emitSpecifier hvalid.1
    obtain ⟨emitted, hemit⟩ := hemit accept sink
    obtain ⟨fuel2, result, hnext⟩ := ih hvalid.2 emitted
    have hemit' := emitSpecifier_mono (Nat.le_max_left fuel1 fuel2) hemit
    have hnext' := formatLoop_mono (Nat.le_max_right fuel1 fuel2) hnext
    obtain ⟨result, hresult⟩ := andThen_exists ⟨result, hnext'⟩
    refine ⟨max fuel1 fuel2 + 1, result, ?_⟩
    rw [formatLoop_specifier hstarts hparse, hemit']
    exact hresult
  | @malformed text hstarts hparse => exact ⟨1, _, formatLoop_malformed hstarts hparse 0 args sink⟩

/-! ## The output -/

theorem emit_acceptAll (out : List Text) (chunk : Text) :
    (⟨out, true⟩ : Sink).emit acceptAll chunk = ⟨out ++ [chunk], true⟩ := rfl

/-- A callback that accepts everything gets the elements after what it has got before. -/
theorem emitElements_acceptAll (mem : ℕ → UInt8) (s : Specifier) (ptr length : ℕ) (joiner : Option Text) :
    ∃ chunks, ∀ out, emitElements acceptAll s mem ptr length joiner ⟨out, true⟩ =
      ⟨out ++ chunks, true⟩ := by
  induction length with
  | zero => exact ⟨[], fun out => by rw [append_nil]; rfl⟩
  | succ length ih =>
    obtain ⟨chunks, hchunks⟩ := ih
    have hstep : ∃ more, ∀ out, emitElements acceptAll s mem ptr (length + 1) joiner ⟨out, true⟩ =
        ⟨(out ++ chunks) ++ more, true⟩ := by
      unfold emitElements at hchunks ⊢
      simp only [range_succ, foldl_append, hchunks, foldl_cons, foldl_nil]
      rcases length with _ | length
      · exact ⟨[_], fun out => emit_acceptAll _ _⟩
      · cases joiner with
        | none => exact ⟨[_], fun out => emit_acceptAll _ _⟩
        | some joiner =>
          refine ⟨[joiner] ++ [formatStrOutput s.type s.spec s.isSigned s.lowercase
            (fmtTypeIndex s.type mem ptr (length + 1))], fun out => ?_⟩
          rw [← append_assoc]
          exact emit_acceptAll _ _
    obtain ⟨more, hmore⟩ := hstep
    exact ⟨chunks ++ more, fun out => by rw [hmore, append_assoc]⟩

/-- A callback that accepts everything gets the output of a specifier after what it has got
    before. -/
theorem emitSpecifier_acceptAll {rest : List ℕ} {out : List Text} {emitted : Sink}
    (h : emitSpecifier acceptAll mem fuel s args ⟨out, true⟩ = some (emitted, rest)) :
    ∃ chunks, emitted = ⟨out ++ chunks, true⟩ ∧
      emitSpecifier acceptAll mem fuel s args ⟨[], true⟩ = some (⟨chunks, true⟩, rest) := by
  obtain ⟨arrChunks, harr⟩ := emitElements_acceptAll mem s (args.headD 0)
    (args.tail.headD 0) (some (s.joiner.getD []))
  unfold emitSpecifier at h ⊢
  cases hmult : s.mult with
  | one =>
    simp only [hmult, some.injEq, Prod.mk.injEq] at h ⊢
    exact ⟨[_], h.1.symm, rfl, h.2⟩
  | arr =>
    simp only [hmult] at h ⊢
    split_ifs at h ⊢ with hstring
    · simp only [some.injEq, Prod.mk.injEq] at h ⊢
      exact ⟨[_], h.1.symm, rfl, h.2⟩
    · simp only [harr, some.injEq, Prod.mk.injEq] at h ⊢
      exact ⟨arrChunks, h.1.symm, rfl, h.2⟩
  | nul =>
    simp only [hmult, map_eq_some_iff] at h ⊢
    obtain ⟨length, hlength, hresult⟩ := h
    obtain ⟨nulChunks, hnul⟩ := emitElements_acceptAll mem s (args.headD 0) length s.joiner
    split_ifs at hresult ⊢ with hstring
    · simp only [Prod.mk.injEq] at hresult
      exact ⟨[_], hresult.1.symm, length, hlength, by rw [hresult.2]; rfl⟩
    · simp only [hnul, Prod.mk.injEq] at hresult
      exact ⟨nulChunks, hresult.1.symm, length, hlength, by rw [hnul, hresult.2]; rfl⟩

theorem Reads.outputs (h : Reads text pieces) (hvalid : ArgsValid mem pieces args) (out : List Text) :
    ∃ chunks, Outputs mem pieces args chunks ∧ ∃ fuel,
      formatLoop acceptAll mem fuel text args ⟨out, true⟩ = some (true, out ++ chunks) := by
  induction h generalizing args out with
  | nil => exact ⟨[], .nil, 1, by rw [formatLoop_nil, append_nil]⟩
  | @run text rest pieces hne hrun hrest _ ih =>
    obtain ⟨happ, hplain, htake, hdrop⟩ := run_split hne hrun hrest
    obtain ⟨chunks, hout, fuel, hnext⟩ := ih hvalid (out ++ [text])
    refine ⟨text :: chunks, .run hout, fuel + 1, ?_⟩
    rw [formatLoop_text happ hplain, htake, hdrop, emit_acceptAll]
    rw [append_assoc] at hnext
    exact hnext
  | @percent rest pieces _ ih =>
    obtain ⟨chunks, hout, fuel, hnext⟩ := ih hvalid (out ++ [[percentSign]])
    refine ⟨[percentSign] :: chunks, .percent hout, fuel + 1, ?_⟩
    rw [formatLoop_percent, emit_acceptAll]
    rw [append_assoc] at hnext
    exact hnext
  | @specifier text s fmtEnd pieces hstarts hparse _ ih =>
    obtain ⟨fuel1, hemit⟩ := exists_emitSpecifier hvalid.1
    obtain ⟨emitted, hemit⟩ := hemit acceptAll ⟨out, true⟩
    obtain ⟨own, rfl, hown⟩ := emitSpecifier_acceptAll hemit
    obtain ⟨chunks, hout, fuel2, hnext⟩ := ih hvalid.2 (out ++ own)
    have hemit' := emitSpecifier_mono (Nat.le_max_left fuel1 fuel2) hemit
    have hnext' := formatLoop_mono (Nat.le_max_right fuel1 fuel2) hnext
    refine ⟨own ++ chunks, .specifier hown hout, max fuel1 fuel2 + 1, ?_⟩
    rw [formatLoop_specifier hstarts hparse, hemit', ← append_assoc]
    exact hnext'
  | @malformed text hstarts hparse =>
    refine ⟨[text], .malformed, 1, ?_⟩
    rw [formatLoop_malformed hstarts hparse, emit_acceptAll]

theorem Reads.of_rest (h : Reads (text.dropWhile (· ≠ percentSign)) pieces) : ∃ pieces, Reads text pieces := by
  rcases hrun : text.takeWhile (· ≠ percentSign) with _ | ⟨c, run⟩
  · -- No run: the rest is the whole text.
    have htext : text.takeWhile (· ≠ percentSign) ++ text.dropWhile (· ≠ percentSign) = text :=
      takeWhile_append_dropWhile
    rw [hrun, nil_append] at htext
    exact ⟨pieces, htext ▸ h⟩
  · have hno : percentSign ∉ text.takeWhile (· ≠ percentSign) := fun hmem => by
      simpa using mem_takeWhile_imp hmem
    have hrest : text.dropWhile (· ≠ percentSign) = [] ∨
        charAt (text.dropWhile (· ≠ percentSign)) 0 = percentSign := by
      rcases hdrop : text.dropWhile (· ≠ percentSign) with _ | ⟨d, rest⟩
      · exact .inl rfl
      · have hd := head?_dropWhile_not (fun c => decide (c ≠ percentSign)) text
        rw [hdrop] at hd
        exact .inr (show d = percentSign by simpa using hd)
    have hread := Reads.run (by rw [hrun]; exact cons_ne_nil _ _) hno hrest h
    rw [takeWhile_append_dropWhile] at hread
    exact ⟨_, hread⟩

theorem reads_of_formatLoop {out : List Text} (h : formatLoop acceptAll mem fuel text args ⟨out, true⟩ = some result) :
    ∃ pieces, Reads text pieces := by
  induction fuel generalizing text args out with
  | zero => contradiction
  | succ fuel ih =>
    rcases text_cases text with rfl | ⟨rest, rfl⟩ | hstarts | ⟨hne, hplain⟩
    · exact ⟨[], .nil⟩
    · rw [formatLoop_percent, emit_acceptAll] at h
      obtain ⟨pieces, hread⟩ := ih h
      exact ⟨_, .percent hread⟩
    · cases hparse : parseSpecifier text with
      | none => exact ⟨_, .malformed hstarts hparse⟩
      | some parsed =>
        obtain ⟨s, fmtEnd⟩ := parsed
        rw [formatLoop_specifier hstarts hparse] at h
        obtain ⟨⟨emitted, rest⟩, hemit, hnext⟩ := bind_eq_some_iff.1 h
        obtain ⟨own, rfl, -⟩ := emitSpecifier_acceptAll hemit
        obtain ⟨pieces, hread⟩ := ih hnext
        exact ⟨_, .specifier hstarts hparse hread⟩
    · rw [formatLoop_text hne hplain, emit_acceptAll] at h
      obtain ⟨pieces, hread⟩ := ih h
      exact hread.of_rest

/-! ## The result -/

theorem reads_plain {msg : Text} (h : percentSign ∉ msg) : msg = [] ∨ Reads msg [.run msg] := by
  rcases eq_or_ne msg [] with hnil | hne
  · exact .inl hnil
  · have hread := Reads.run hne h (.inl rfl) .nil
    rw [append_nil] at hread
    exact .inr hread

theorem formatStrVa_plain {msg : Text} (h : percentSign ∉ msg) (args : List ℕ) :
    ∃ fuel out, formatStrVa acceptAll mem fuel msg args = some (true, out) ∧ out.flatten = msg := by
  rcases reads_plain h with rfl | hread
  · exact ⟨1, [], formatLoop_nil 0 args _, rfl⟩
  · have hvalid : ArgsValid mem [.run msg] args := trivial
    obtain ⟨chunks, hout, fuel, hloop⟩ := hread.outputs hvalid []
    refine ⟨fuel, chunks, hloop, ?_⟩
    cases hout with
    | run hout =>
      cases hout
      simp

/-- The formatter ends and outputs the text between the specifiers as it is if and only if the
    message can be read as a sequence of pieces. -/
theorem formatStrVa_verbatim_iff (mem : ℕ → UInt8) (msg : Text) (args : List ℕ)
    (hvalid : ∀ pieces, Reads msg pieces → ArgsValid mem pieces args) :
    FormatsVerbatim mem msg args ↔ ∃ pieces, Reads msg pieces := by
  constructor
  · intro h
    obtain ⟨fuel, result, hloop⟩ := h.ends acceptAll
    exact reads_of_formatLoop hloop
  · rintro ⟨pieces, hread⟩
    refine ⟨fun accept => hread.ends (hvalid pieces hread) _, ?_, fun h => formatStrVa_plain h args⟩
    obtain ⟨chunks, hout, fuel, hloop⟩ := hread.outputs (hvalid pieces hread) []
    exact ⟨pieces, chunks, hread, hout, fuel, hloop⟩

/-- A lone percent sign near the end of the message stops the formatter for ever. -/
theorem formatLoop_stuck (hpercent : charAt text 0 = percentSign) (hplain : Plain text) (fuel : ℕ)
    (args : List ℕ) (out : List Text) :
    formatLoop acceptAll mem fuel text args ⟨out, true⟩ = none := by
  have hne : text ≠ [] := by
    rintro rfl
    exact absurd hpercent (by decide)
  obtain ⟨c, rest, rfl⟩ := exists_cons_of_ne_nil hne
  have hc : c = percentSign := hpercent
  have hsame : (c :: rest).dropWhile (· ≠ percentSign) = c :: rest := by simp [hc]
  induction fuel generalizing out with
  | zero => rfl
  | succ fuel ih =>
    rw [formatLoop_text hne hplain, hsame, emit_acceptAll]
    exact ih _

end

/-- The bytes of a string. -/
def ofString (s : String) : Text := s.toUTF8.toList

/-- Memory with the string "abc" at the address 16. -/
def stringMem : ℕ → UInt8 := fun a => (ofString "abc").getD (a - 16) 0

/-- In memory that is zero from some address on every array ends. -/
theorem argsValid_of_zero {mem : ℕ → UInt8} {n : ℕ} (hzero : ∀ a, n ≤ a → mem a = 0)
    (pieces : List Piece) (args : List ℕ) : ArgsValid mem pieces args := by
  have helement : ∀ type ptr, fmtTypeIndex type mem ptr n = 0 := by
    intro type ptr
    have hread : Frame.read mem type.size (ptr + n * type.size) = 0 := by
      refine Frame.read_eq_zero fun b hb => hzero b ?_
      have hsize : 0 < type.size := by cases type <;> decide
      have := Nat.le_mul_of_pos_right n hsize
      omega
    unfold fmtTypeIndex
    rw [hread]
    cases type <;> rfl
  induction pieces generalizing args with
  | nil => trivial
  | cons piece pieces ih =>
    cases piece with
    | specifier source s => exact ⟨fun _ => ⟨n, helement s.type _⟩, ih _⟩
    | run | percent | malformed => exact ih args

/-- A message with a specifier for a C string and a percent sign at the end. -/
theorem formatStrVa_verbatim_cs :
    FormatsVerbatim stringMem (ofString "say %\x7bcs\x7d, 100%%") [16] := by
  have hzero : ∀ a, 19 ≤ a → stringMem a = 0 := by
    intro a ha
    have hlength : (ofString "abc").length = 3 := by decide +kernel
    exact getD_eq_default _ _ (by omega)
  have hloop : formatLoop acceptAll stringMem 6 (ofString "say %\x7bcs\x7d, 100%%") [16] ⟨[], true⟩ =
      some (true, [ofString "say ", ofString "abc", ofString ", 100", ofString "%"]) := by
    decide +kernel
  exact (formatStrVa_verbatim_iff stringMem _ [16] fun pieces _ =>
    argsValid_of_zero hzero pieces [16]).2 (reads_of_formatLoop hloop)

/-- The message "100%" is never output completely. -/
theorem formatStrVa_lonePercent : ¬ FormatsVerbatim (fun _ => 0) (ofString "100%") [] := by
  intro h
  obtain ⟨fuel, result, hloop⟩ := h.ends acceptAll
  have hplain : Plain (ofString "100%") := fun h => absurd h (by decide +kernel)
  have hlast : Plain [percentSign] := fun _ => by decide
  have hne : ofString "100%" ≠ [] := by decide +kernel
  have hrest : (ofString "100%").dropWhile (· ≠ percentSign) = [percentSign] := by decide +kernel
  cases fuel with
  | zero => contradiction
  | succ fuel =>
    rw [formatStrVa, formatLoop_text hne hplain, emit_acceptAll, hrest] at hloop
    exact absurd (hloop.symm.trans (formatLoop_stuck rfl hlast fuel [] _)) (by simp)

end BadgerOS.Format
