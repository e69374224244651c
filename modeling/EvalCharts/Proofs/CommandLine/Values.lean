/-
Module: EvalCharts.Proofs.CommandLine.Values
Purpose: The values of options. What is written of a part of a configuration is read as that part, and
  what is read from a value says which numbers the configuration then holds. A configuration passes the
  check if all of its numbers are finite.
Main exports: Config.Valid, readCount_toDigits, put_valueText, put_sweepText, Setting.numbers,
  Setting.literals, Denote, numbers_put, numbers_put_of_ne, check_cases, check_of_valid
-/
import EvalCharts.CommandLine.Parse
import EvalCharts.Proofs.Double.RoundTrip
import EvalCharts.Proofs.Results

namespace EvalCharts

/-- What every configuration that a command line asks for satisfies. -/
structure Config.Valid (config : Config) : Prop where
  input_ne : config.input ≠ ""
  outputDir_ne : config.outputDir ≠ ""
  finite_thresholds : ∀ entry ∈ config.thresholds.entries, entry.2.isFinite = true
  sweep_ne_nil : config.synMetaSweep ≠ []
  finite_sweep : ∀ value ∈ config.synMetaSweep, value.isFinite = true
  maxK_pos : 1 ≤ config.maxK
  maxK_lt : config.maxK < 2 ^ 32

/-- Take over the part of another configuration that an option is about. -/
def Config.take (config : Config) (setting : CommandLine.Setting) (source : Config) : Config :=
  match setting with
  | .input => { config with input := source.input }
  | .outputDir => { config with outputDir := source.outputDir }
  | .simMember =>
    { config with thresholds := { config.thresholds with simMember := source.thresholds.simMember } }
  | .simMeta =>
    { config with thresholds := { config.thresholds with simMeta := source.thresholds.simMeta } }
  | .synMember =>
    { config with thresholds := { config.thresholds with synMember := source.thresholds.synMember } }
  | .synMeta =>
    { config with thresholds := { config.thresholds with synMeta := source.thresholds.synMeta } }
  | .ngramSize =>
    { config with thresholds := { config.thresholds with ngramSize := source.thresholds.ngramSize } }
  | .missing =>
    { config with thresholds := { config.thresholds with missing := source.thresholds.missing } }
  | .maxDistance =>
    { config with thresholds := { config.thresholds with maxDistance := source.thresholds.maxDistance } }
  | .synMetaSweep => { config with synMetaSweep := source.synMetaSweep }
  | .maxK => { config with maxK := source.maxK }

theorem Config.valid_initial : Config.initial.Valid :=
  ⟨by decide, by decide, by decide, by decide, by decide, by decide, by decide⟩

namespace CommandLine

/-! ### Counts -/

theorem le_ofDigitChars (digits : List Char) (value : Nat) :
    value ≤ Nat.ofDigitChars 10 digits value := by
  induction digits generalizing value with
  | nil => exact le_refl value
  | cons digit digits ih =>
      rw [Nat.ofDigitChars_cons]
      have := ih (10 * value + (digit.toNat - '0'.toNat))
      omega

/-- Digits are read as the number they denote, as long as it fits into 32 bits. -/
theorem readDigits_eq {digits : List Char} (hdigits : Double.AllDigits digits) {value : Nat}
    (hlt : Nat.ofDigitChars 10 digits value < 2 ^ 32) :
    readDigits value digits = .ok (Nat.ofDigitChars 10 digits value) := by
  induction digits generalizing value with
  | nil => rfl
  | cons digit digits ih =>
      rw [Nat.ofDigitChars_cons] at hlt ⊢
      have hle := le_ofDigitChars digits (10 * value + (digit.toNat - '0'.toNat))
      have hnext : 10 * value + (digit.toNat - '0'.toNat) < 2 ^ 32 := by omega
      simp only [readDigits, hdigits digit List.mem_cons_self, if_true, if_pos hnext]
      exact ih (fun c hc => hdigits c (List.mem_cons_of_mem _ hc)) hlt

/-- A positive number of 32 bits is read from its digits. -/
theorem readCount_toDigits {count : Nat} (hpos : 1 ≤ count) (hlt : count < 2 ^ 32) :
    readCount (Nat.toDigits 10 count) = .ok count := by
  have hdigits := Double.allDigits_toDigits count
  have hread : readDigits 0 (Nat.toDigits 10 count) = .ok count := by
    have hvalue := Nat.ofDigitChars_ten_toDigits (n := count)
    rw [readDigits_eq hdigits (by omega), hvalue]
  unfold readCount
  cases hchars : Nat.toDigits 10 count with
  | nil => exact absurd hchars Nat.toDigits_ne_nil
  | cons digit digits =>
      rw [hchars] at hdigits hread
      have hsign : digit ≠ '+' := by
        rintro rfl
        exact absurd (hdigits '+' List.mem_cons_self) (by decide)
      simp [hsign, hread, ok_bind_eq, Nat.ne_of_gt hpos]

/-- What is read as a count is positive. -/
theorem pos_of_readCount {text : List Char} {count : Nat} (h : readCount text = .ok count) :
    1 ≤ count := by
  have hpos : ∀ value : Nat, (if value = 0 then Except.error CountError.zero else .ok value) = .ok count →
      1 ≤ count := by
    intro value hvalue
    split at hvalue
    · cases hvalue
    · rename_i hne
      rw [← Except.ok.inj hvalue]
      omega
  unfold readCount at h
  split at h
  all_goals
    obtain ⟨value, -, hvalue⟩ := bind_eq_ok_iff.1 h
    exact hpos value hvalue

/-! ### What is written is read -/

theorem readNumber_write (setting : Setting) (x : Float) :
    setting.readNumber (Double.write x) = .ok x := by
  simp [Setting.readNumber, Double.read_write, Except.mapError]

/-- What is read as a number denotes it. -/
theorem readNumber_eq_ok_iff {setting : Setting} {text : List Char} {x : Float} :
    setting.readNumber text = .ok x ↔ Double.read text = .ok x :=
  mapError_eq_ok_iff

/-- Cutting a written sweep at its commas gives the texts of its values. -/
theorem cut_sweepText {values : List Float} (hne : values ≠ []) :
    Text.cut ',' (",".intercalate (values.map Double.text)).toList = values.map Double.write := by
  have hcomma : ",".toList = [','] := by decide
  have htext := Double.not_mem_write (c := ',') (by decide)
  rw [String.toList_intercalate, hcomma, List.map_map]
  induction values with
  | nil => exact absurd rfl hne
  | cons x values ih =>
      cases values with
      | nil => simp [Double.text, Text.cut_of_not_mem (htext x)]
      | cons y values =>
          have hcut := ih (List.cons_ne_nil y values)
          simp only [List.map_cons, Function.comp_apply, Double.text, String.toList_ofList,
            List.intercalate_cons_cons, List.append_assoc, List.singleton_append] at hcut ⊢
          rw [Text.cut_append_cons (htext x), hcut]

/-- What an option is given as describes the part of a configuration that the option is about: reading it
    takes over this part. -/
theorem put_valueText {source : Config} (h : source.Valid) {setting : Setting}
    (hsetting : setting ≠ .synMetaSweep) (given : Bool) (config : Config) :
    setting.put given (setting.valueText source) config = .ok (config.take setting source) := by
  cases setting with
  | synMetaSweep => exact absurd rfl hsetting
  | input => simp [Setting.put, Setting.valueText, Setting.readPath, Config.take, h.input_ne]
  | outputDir => simp [Setting.put, Setting.valueText, Setting.readPath, Config.take, h.outputDir_ne]
  | maxK =>
      have hcount := readCount_toDigits h.maxK_pos h.maxK_lt
      simp [Setting.put, Setting.valueText, Config.take, hcount, Except.mapError]
  | _ => simp [Setting.put, Setting.valueText, Config.take, Double.text, readNumber_write]

/-- A part of a sweep is put behind the parts that have been given. -/
theorem put_sweepText {values : List Float} (hne : values ≠ []) (given : Bool) (config : Config) :
    Setting.synMetaSweep.put given (",".intercalate (values.map Double.text)) config =
      .ok { config with
            synMetaSweep := if given then config.synMetaSweep ++ values else values } := by
  have hread : (values.map Double.write).mapM Setting.synMetaSweep.readNumber = .ok values := by
    rw [mapM_eq_ok_iff, List.forall₂_map_left_iff, List.forall₂_same]
    intro x _
    exact readNumber_write _ x
  simp only [Setting.put, cut_sweepText hne, hread, ok_bind_eq]
  rfl

/-! ### What is read has been written -/

/-- The numbers of a configuration that an option is about. -/
def Setting.numbers (config : Config) : Setting → List Float
  | .input => []
  | .outputDir => []
  | .simMember => [config.thresholds.simMember]
  | .simMeta => [config.thresholds.simMeta]
  | .synMember => [config.thresholds.synMember]
  | .synMeta => [config.thresholds.synMeta]
  | .ngramSize => [config.thresholds.ngramSize]
  | .missing => [config.thresholds.missing]
  | .maxDistance => [config.thresholds.maxDistance]
  | .synMetaSweep => config.synMetaSweep
  | .maxK => []

/-- The literals of numbers in the value of an option. -/
def Setting.literals (value : String) : Setting → List (List Char)
  | .input => []
  | .outputDir => []
  | .synMetaSweep => Text.cut ',' value.toList
  | .maxK => []
  | _ => [value.toList]

/-- The literals denote the numbers, one by one. -/
def Denote (literals : List (List Char)) (numbers : List Float) : Prop :=
  List.Forall₂ (fun literal x => Double.read literal = .ok x) literals numbers

theorem denote_singleton {setting : Setting} {text : List Char} {x : Float}
    (h : setting.readNumber text = .ok x) : Denote [text] [x] :=
  List.forall₂_cons.2 ⟨readNumber_eq_ok_iff.1 h, List.Forall₂.nil⟩

/-- Reading a value takes over the numbers that its literals denote. -/
theorem numbers_put {setting : Setting} {given : Bool} {value : String} {config config' : Config}
    (h : setting.put given value config = .ok config') (hgiven : given = true → setting = .synMetaSweep) :
    ∃ numbers, Denote (setting.literals value) numbers ∧
      setting.numbers config' = (if given then setting.numbers config else []) ++ numbers := by
  by_cases hsweep : setting = .synMetaSweep
  · subst hsweep
    simp only [Setting.put, bind_eq_ok_iff, pure_eq_ok_iff, mapM_eq_ok_iff,
      readNumber_eq_ok_iff] at h
    obtain ⟨numbers, hnumbers, rfl⟩ := h
    refine ⟨numbers, hnumbers, ?_⟩
    cases given <;> rfl
  · have hfirst : given = false := by
      cases given with
      | true => exact absurd (hgiven rfl) hsweep
      | false => rfl
    subst hfirst
    cases setting with
    | synMetaSweep => exact absurd rfl hsweep
    | input =>
        exact ⟨[], List.Forall₂.nil, rfl⟩
    | outputDir => exact ⟨[], List.Forall₂.nil, rfl⟩
    | maxK => exact ⟨[], List.Forall₂.nil, rfl⟩
    | _ =>
        simp only [Setting.put, bind_eq_ok_iff, pure_eq_ok_iff] at h
        obtain ⟨x, hx, rfl⟩ := h
        exact ⟨[x], denote_singleton hx, rfl⟩

/-- Reading a value changes the part of the configuration alone that the option is about. -/
theorem eq_take_of_put {setting : Setting} {given : Bool} {value : String} {config config' : Config}
    (h : setting.put given value config = .ok config') : config' = config.take setting config' := by
  cases setting with
  | _ =>
      simp only [Setting.put, bind_eq_ok_iff, pure_eq_ok_iff] at h
      obtain ⟨x, -, rfl⟩ := h
      rfl

theorem numbers_take_of_ne {setting other : Setting} (hne : other ≠ setting) (config source : Config) :
    other.numbers (config.take setting source) = other.numbers config := by
  revert hne
  cases setting <;> cases other <;> simp [Setting.numbers, Config.take]

theorem numbers_put_of_ne {setting other : Setting} {given : Bool} {value : String}
    {config config' : Config} (h : setting.put given value config = .ok config')
    (hne : other ≠ setting) : other.numbers config' = other.numbers config := by
  rw [eq_take_of_put h, numbers_take_of_ne hne]

/-- The largest candidate rank stays positive. -/
theorem maxK_put {setting : Setting} {given : Bool} {value : String} {config config' : Config}
    (h : setting.put given value config = .ok config') (hpos : 1 ≤ config.maxK) : 1 ≤ config'.maxK := by
  cases setting with
  | maxK =>
      simp only [Setting.put, bind_eq_ok_iff, pure_eq_ok_iff, mapError_eq_ok_iff] at h
      obtain ⟨count, hcount, rfl⟩ := h
      exact pos_of_readCount hcount
  | _ =>
      simp only [Setting.put, bind_eq_ok_iff, pure_eq_ok_iff] at h
      obtain ⟨x, -, rfl⟩ := h
      exact hpos

/-! ### The check -/

/-- What the check says: that a threshold is not finite, else that the sweep is empty, else that one of its
    values is not finite, and else the configuration as it is. -/
theorem check_cases (config : Config) :
    (∃ entry ∈ config.thresholds.entries, entry.2.isFinite = false) ∧
        check config = .error .infiniteThreshold ∨
      (∀ entry ∈ config.thresholds.entries, entry.2.isFinite = true) ∧
        (config.synMetaSweep = [] ∧ check config = .error .emptySweep ∨
          (∃ value ∈ config.synMetaSweep, value.isFinite = false) ∧
            check config = .error .infiniteSweep ∨
          config.synMetaSweep ≠ [] ∧ (∀ value ∈ config.synMetaSweep, value.isFinite = true) ∧
            check config = .ok config) := by
  by_cases hthresholds : ∃ entry ∈ config.thresholds.entries, entry.2.isFinite = false
  · refine Or.inl ⟨hthresholds, ?_⟩
    unfold check
    rw [if_pos]
    simpa using hthresholds
  · have hfinite : ∀ entry ∈ config.thresholds.entries, entry.2.isFinite = true := by
      simpa using hthresholds
    refine Or.inr ⟨hfinite, ?_⟩
    unfold check
    rw [if_neg (by simpa using hfinite)]
    by_cases hnil : config.synMetaSweep = []
    · exact Or.inl ⟨hnil, by simp [hnil]⟩
    · rw [if_neg (by simpa using hnil)]
      by_cases hsweep : ∃ value ∈ config.synMetaSweep, value.isFinite = false
      · refine Or.inr (Or.inl ⟨hsweep, ?_⟩)
        rw [if_pos]
        simpa using hsweep
      · have hvalues : ∀ value ∈ config.synMetaSweep, value.isFinite = true := by
          simpa using hsweep
        refine Or.inr (Or.inr ⟨hnil, hvalues, ?_⟩)
        rw [if_neg]
        simpa using hvalues

/-- The check changes nothing. -/
theorem eq_of_check {config config' : Config} (h : check config = .ok config') : config = config' := by
  obtain ⟨-, hcheck⟩ | ⟨-, ⟨-, hcheck⟩ | ⟨-, hcheck⟩ | ⟨-, -, hcheck⟩⟩ := check_cases config <;>
    rw [hcheck] at h <;> cases h
  rfl

/-- A valid configuration passes the check. -/
theorem check_of_valid {config : Config} (h : config.Valid) : check config = .ok config := by
  rcases check_cases config with ⟨⟨entry, hmem, hfinite⟩, -⟩ | ⟨-, hrest⟩
  · exact absurd (h.finite_thresholds entry hmem) (by simp [hfinite])
  · rcases hrest with ⟨hnil, -⟩ | ⟨⟨value, hmem, hfinite⟩, -⟩ | ⟨-, -, hcheck⟩
    · exact absurd hnil h.sweep_ne_nil
    · exact absurd (h.finite_sweep value hmem) (by simp [hfinite])
    · exact hcheck

end CommandLine

end EvalCharts
