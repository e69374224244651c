/-
Module: EvalCharts.Proofs.CommandLine.RoundTrip
Purpose: A configuration that is written as a command line is read back. Its options may stand in any
  order, some of them by their letters, the sweep may be spread over several options, and what is left out
  keeps its initial value.
Main exports: Setting.mark, Written, Line, Config.restrict, Argument.ofText_mark, Reader.after,
  step_argument, foldlM_arguments, parse_arguments
-/
import EvalCharts.Proofs.CommandLine.Values

namespace EvalCharts.CommandLine

/-! ### Writing a command line -/

/-- How an option is named: by its letter, if it has one and is to be `short`, or by its long name. -/
def Setting.mark (setting : Setting) (short : Bool) : String :=
  match short, setting.letter? with
  | true, some letter => String.ofList ['-', letter]
  | _, _ => "--" ++ setting.longName

/-- An option that is written with its value. -/
inductive Written where
  /-- An option that has all of its value. -/
  | whole (setting : Setting) (single : setting ≠ .synMetaSweep) (short : Bool)
  /-- Some values of the sweep. -/
  | part (values : List Float) (nonempty : values ≠ [])

namespace Written

def setting : Written → Setting
  | .whole setting _ _ => setting
  | .part _ _ => .synMetaSweep

/-- The value that is written for a configuration: numbers are written so that they read back, and those
    of a sweep have commas between them. -/
def value (config : Config) : Written → String
  | .whole setting _ _ => setting.valueText config
  | .part values _ => ",".intercalate (values.map Double.text)

/-- The option as a single argument. -/
def argument (config : Config) (option : Written) : String :=
  let short :=
    match option with
    | .whole _ _ short => short
    | .part _ _ => false
  option.setting.mark short ++ "=" ++ option.value config

/-- The values of the sweep that the option holds. -/
def sweepValues : Written → List Float
  | .whole _ _ _ => []
  | .part values _ => values

end Written

/-- The options that describe a configuration, or a part of it. All but the sweep are given at most once,
    and if the sweep is given, its parts make it up in their order. -/
structure Line (config : Config) where
  options : List Written
  once : ((options.map Written.setting).filter (· ≠ .synMetaSweep)).Nodup
  sweep : .synMetaSweep ∈ options.map Written.setting →
    options.flatMap Written.sweepValues = config.synMetaSweep

namespace Line

variable {config : Config} (line : Line config)

def settings : List Setting :=
  line.options.map Written.setting

def arguments : List String :=
  line.options.map (Written.argument config)

end Line

end EvalCharts.CommandLine

namespace EvalCharts

open CommandLine

/-- The configuration that agrees with another one in what is given, and is initial in all else. -/
def Config.restrict (config : Config) (given : List Setting) : Config where
  input := if .input ∈ given then config.input else initial.input
  outputDir := if .outputDir ∈ given then config.outputDir else initial.outputDir
  thresholds :=
    { simMember :=
        if .simMember ∈ given then config.thresholds.simMember else initial.thresholds.simMember
      simMeta := if .simMeta ∈ given then config.thresholds.simMeta else initial.thresholds.simMeta
      synMember :=
        if .synMember ∈ given then config.thresholds.synMember else initial.thresholds.synMember
      synMeta := if .synMeta ∈ given then config.thresholds.synMeta else initial.thresholds.synMeta
      ngramSize :=
        if .ngramSize ∈ given then config.thresholds.ngramSize else initial.thresholds.ngramSize
      missing := if .missing ∈ given then config.thresholds.missing else initial.thresholds.missing
      maxDistance :=
        if .maxDistance ∈ given then config.thresholds.maxDistance
        else initial.thresholds.maxDistance }
  synMetaSweep := if .synMetaSweep ∈ given then config.synMetaSweep else initial.synMetaSweep
  maxK := if .maxK ∈ given then config.maxK else initial.maxK

namespace Config

variable {config : Config} {given : List Setting}

/-- With everything given, nothing is initial. -/
theorem restrict_of_forall_mem (h : ∀ setting, setting ∈ given) : config.restrict given = config := by
  simp [restrict, h]

/-- Taking over one more part of a configuration. -/
theorem take_restrict (config : Config) (given : List Setting) (setting : Setting) :
    (config.restrict given).take setting config = config.restrict (given ++ [setting]) := by
  cases setting <;> simp [restrict, take]

/-- No part but the sweep depends on the sweep. -/
theorem take_of_ne_sweep {setting : Setting} (h : setting ≠ .synMetaSweep) (other source : Config)
    (values : List Float) :
    other.take setting { source with synMetaSweep := values } = other.take setting source := by
  cases setting <;> simp_all [take]

/-- A mixture of two valid configurations is valid. -/
theorem Valid.restrict (h : config.Valid) (given : List Setting) : (config.restrict given).Valid where
  input_ne := iteInduction (motive := (· ≠ "")) (fun _ => h.input_ne) fun _ => valid_initial.input_ne
  outputDir_ne :=
    iteInduction (motive := (· ≠ "")) (fun _ => h.outputDir_ne) fun _ => valid_initial.outputDir_ne
  finite_thresholds := by
    have hfinite := h.finite_thresholds
    have hinitial := valid_initial.finite_thresholds
    have hmixed : ∀ {p : Prop} [Decidable p] {x y : Float}, x.isFinite = true → y.isFinite = true →
        (if p then x else y).isFinite = true :=
      fun hx hy => iteInduction (motive := (Float.isFinite · = true)) (fun _ => hx) fun _ => hy
    simp only [Thresholds.entries, List.forall_mem_cons, List.not_mem_nil, false_implies,
      implies_true, and_true] at hfinite hinitial ⊢
    obtain ⟨h₁, h₂, h₃, h₄, h₅, h₆, h₇⟩ := hfinite
    obtain ⟨h₁', h₂', h₃', h₄', h₅', h₆', h₇'⟩ := hinitial
    exact ⟨hmixed h₁ h₁', hmixed h₂ h₂', hmixed h₃ h₃', hmixed h₄ h₄', hmixed h₅ h₅',
      hmixed h₆ h₆', hmixed h₇ h₇'⟩
  sweep_ne_nil :=
    iteInduction (motive := (· ≠ [])) (fun _ => h.sweep_ne_nil) fun _ => valid_initial.sweep_ne_nil
  finite_sweep :=
    iteInduction (motive := fun sweep : List Float => ∀ value ∈ sweep, value.isFinite = true)
      (fun _ => h.finite_sweep) fun _ => valid_initial.finite_sweep
  maxK_pos := iteInduction (motive := (1 ≤ ·)) (fun _ => h.maxK_pos) fun _ => valid_initial.maxK_pos
  maxK_lt :=
    iteInduction (motive := (· < 2 ^ 32)) (fun _ => h.maxK_lt) fun _ => valid_initial.maxK_lt

end Config

namespace CommandLine

/-! ### Telling what an argument is -/

namespace Argument

theorem ofText_dashes {body : List Char} (hne : body ≠ []) :
    ofText (String.ofList ('-' :: '-' :: body)) =
      match body.dropWhile (· ≠ '=') with
      | [] => ofLong (String.ofList (body.takeWhile (· ≠ '='))) none
      | _ :: value =>
        ofLong (String.ofList (body.takeWhile (· ≠ '='))) (some (String.ofList value)) := by
  cases body with
  | nil => exact absurd rfl hne
  | cons c body =>
      unfold ofText
      rw [String.toList_ofList]
      rfl

/-- What stands behind the first `=` is the value of the option named in front of it. -/
theorem ofText_long (setting : Setting) (value : String) :
    ofText ("--" ++ setting.longName ++ "=" ++ value) = .option setting (some value) := by
  have htext : "--" ++ setting.longName ++ "=" ++ value =
      String.ofList ('-' :: '-' :: (setting.longName.toList ++ '=' :: value.toList)) := by
    apply String.toList_inj.1
    have hdashes : "--".toList = ['-', '-'] := by decide
    have hequals : "=".toList = ['='] := by decide
    simp [hdashes, hequals]
  have hequals : '=' ∉ setting.longName.toList := by cases setting <;> decide
  have hname : ∀ c ∈ setting.longName.toList, decide (c ≠ '=') = true :=
    fun c hc => decide_eq_true fun heq => hequals (heq ▸ hc)
  rw [htext, ofText_dashes (by simp), List.dropWhile_append_of_pos hname,
    List.takeWhile_append_of_pos hname]
  simp [ofLong, Setting.ofLong?_longName]

theorem ofText_short {setting : Setting} {letter : Char} (h : setting.letter? = some letter)
    (value : String) :
    ofText (String.ofList ['-', letter] ++ "=" ++ value) = .option setting (some value) := by
  have htext : (String.ofList ['-', letter] ++ "=" ++ value).toList =
      '-' :: letter :: '=' :: value.toList := by
    have hequals : "=".toList = ['='] := by decide
    simp [hequals]
  have hletter := Setting.ofLetter?_eq_some h
  have hdash : letter ≠ '-' := by
    rintro rfl
    cases setting <;> simp [Setting.letter?] at h
  have hshort : ofShort letter ('=' :: value.toList) = .option setting (some value) := by
    simp [ofShort, hletter]
  unfold ofText
  rw [htext]
  split <;> simp_all

/-- A named option with a value is recognized. -/
theorem ofText_mark (setting : Setting) (short : Bool) (value : String) :
    ofText (setting.mark short ++ "=" ++ value) = .option setting (some value) := by
  unfold Setting.mark
  split
  · rename_i letter hletter
    exact ofText_short hletter value
  · exact ofText_long setting value

end Argument

/-! ### Reading the options -/

/-- What has been read after some options. -/
def Reader.after (config : Config) (options : List Written) : Reader where
  config :=
    { config with synMetaSweep := options.flatMap Written.sweepValues }.restrict
      (options.map Written.setting)
  given := (options.map Written.setting).reverse
  pending := .nothing
  ended := false

theorem flatMap_sweepValues_of_not_mem {options : List Written}
    (h : Setting.synMetaSweep ∉ options.map Written.setting) :
    options.flatMap Written.sweepValues = [] := by
  rw [List.flatMap_eq_nil_iff]
  intro option hmem
  cases option with
  | whole setting single short => rfl
  | part values nonempty => exact absurd (List.mem_map_of_mem hmem) h

/-- An option with its value is read at once. -/
theorem Reader.step_argument {reader : Reader} (hpending : reader.pending = .nothing)
    (hended : reader.ended = false) (config : Config) (option : Written) :
    reader.step (option.argument config) =
      (reader.accept option.setting (option.value config)).mapError .usage := by
  unfold Written.argument
  simp [Reader.step, hended, Argument.ofText_mark, Reader.meet, Reader.settle, hpending, ok_bind_eq]

/-- One more option. -/
theorem Reader.accept_after {config : Config} (valid : config.Valid) {options : List Written}
    {option : Written}
    (honce : option.setting ≠ .synMetaSweep → option.setting ∉ options.map Written.setting) :
    (Reader.after config options).accept option.setting (option.value config) =
      .ok (Reader.after config (options ++ [option])) := by
  cases option with
  | whole setting single short =>
      have hnew : setting ∉ options.map Written.setting := honce single
      have hgiven : (Reader.after config options).given.contains setting = false := by
        simpa [Reader.after] using hnew
      have hput := put_valueText valid single false (Reader.after config options).config
      simp only [Reader.accept, Written.setting, Written.value, hgiven, Bool.false_eq_true,
        false_and, if_false, hput, Except.map]
      have htake := Config.take_restrict
        { config with synMetaSweep := options.flatMap Written.sweepValues }
        (options.map Written.setting) setting
      rw [Config.take_of_ne_sweep single] at htake
      simp [Reader.after, htake, Written.setting, Written.sweepValues]
  | part values nonempty =>
      have hput := put_sweepText nonempty
        ((Reader.after config options).given.contains .synMetaSweep) (Reader.after config options).config
      simp only [Reader.accept, Written.setting, Written.value, hput, ne_eq, not_true_eq_false,
        and_false, if_false, Except.map]
      have hsweep : (if (Reader.after config options).given.contains .synMetaSweep then
          (Reader.after config options).config.synMetaSweep ++ values else values) =
            options.flatMap Written.sweepValues ++ values := by
        by_cases hgiven : Setting.synMetaSweep ∈ options.map Written.setting
        · have hcontains : (Reader.after config options).given.contains .synMetaSweep = true := by
            simpa [Reader.after] using hgiven
          rw [hcontains, if_pos rfl]
          simp only [Reader.after, Config.restrict, if_pos hgiven]
        · have hcontains : (Reader.after config options).given.contains .synMetaSweep = false := by
            simpa [Reader.after] using hgiven
          rw [hcontains, if_neg Bool.false_ne_true, flatMap_sweepValues_of_not_mem hgiven]
          rfl
      rw [hsweep]
      simp [Reader.after, Config.restrict, Written.setting, Written.sweepValues]

/-- All options of a command line. -/
theorem foldlM_arguments {config : Config} (valid : config.Valid) {options : List Written}
    (honce : ((options.map Written.setting).filter (· ≠ .synMetaSweep)).Nodup) :
    (options.map (Written.argument config)).foldlM Reader.step .start =
      .ok (Reader.after config options) := by
  induction options using List.reverseRecOn with
  | nil => rfl
  | append_singleton options option ih =>
      simp only [List.map_append, List.map_cons, List.map_nil, List.filter_append] at honce
      obtain ⟨hbefore, -, hdisjoint⟩ := List.nodup_append.1 honce
      have hnew : option.setting ≠ .synMetaSweep → option.setting ∉ options.map Written.setting := by
        intro hne hmem
        have hmem' : option.setting ∈ (options.map Written.setting).filter (· ≠ .synMetaSweep) :=
          List.mem_filter.2 ⟨hmem, by simpa using hne⟩
        exact hdisjoint _ hmem' _ (by simp [hne]) rfl
      rw [List.map_append, List.foldlM_append, ih hbefore, ok_bind_eq, List.map_cons, List.map_nil,
        List.foldlM_cons, Reader.step_argument rfl rfl, Reader.accept_after valid hnew]
      rfl

/-- A command line that describes a valid configuration is read as this configuration, with the initial
    values for what is left out. -/
theorem parse_arguments (config : Config) (valid : config.Valid) (line : Line config) :
    parse line.arguments = .ok (config.restrict line.settings) ∧
      ((∀ setting, setting ∈ line.settings) → parse line.arguments = .ok config) := by
  have hconfig : (Reader.after config line.options).config = config.restrict line.settings := by
    unfold Reader.after Config.restrict Line.settings
    by_cases hgiven : Setting.synMetaSweep ∈ line.options.map Written.setting
    · simp only [line.sweep hgiven]
    · simp only [hgiven, if_false]
  have hparse : parse line.arguments = .ok (config.restrict line.settings) := by
    unfold parse Line.arguments
    rw [foldlM_arguments valid line.once, ok_bind_eq]
    change (check (Reader.after config line.options).config).mapError Refusal.check = _
    rw [hconfig, check_of_valid (valid.restrict line.settings)]
    rfl
  refine ⟨hparse, fun hall => ?_⟩
  rw [hparse, Config.restrict_of_forall_mem hall]

/-- A configuration that differs from the initial one everywhere. -/
def changed : Config where
  input := "=runs.csv"
  outputDir := "-i"
  thresholds :=
    { simMember := 0.25, simMeta := -0.0, synMember := 2.0, synMeta := 4.0, ngramSize := 1.0
      missing := 0.1, maxDistance := 7.0 }
  synMetaSweep := [2.0, 4.0, 2.0]
  maxK := 4294967295

/-- Its options, paths and count by their letters, and the sweep in two parts. -/
def changedLine : Line changed where
  options :=
    [.part [2.0] (by decide), .whole .maxK (by decide) true, .whole .synMeta (by decide) false,
      .whole .simMeta (by decide) false, .part [4.0, 2.0] (by decide), .whole .input (by decide) true,
      .whole .missing (by decide) false, .whole .maxDistance (by decide) false,
      .whole .outputDir (by decide) true, .whole .simMember (by decide) false,
      .whole .ngramSize (by decide) false, .whole .synMember (by decide) false]
  once := by decide
  sweep _ := rfl

theorem parse_arguments_changed :
    changed.Valid ∧
      parse ["--syn-meta-sweep=2", "-k=4294967295", "--syn-meta=4", "--sim-meta=-0",
        "--syn-meta-sweep=4,2", "-i==runs.csv", "--missing=0.1", "--max-distance=7", "-o=-i",
        "--sim-member=0.25", "--ngram-size=1", "--syn-member=2"] = .ok changed := by
  have hvalid : changed.Valid :=
    ⟨by decide, by decide, by decide, by decide, by decide, by decide, by decide⟩
  have harguments : changedLine.arguments =
      ["--syn-meta-sweep=2", "-k=4294967295", "--syn-meta=4", "--sim-meta=-0",
        "--syn-meta-sweep=4,2", "-i==runs.csv", "--missing=0.1", "--max-distance=7", "-o=-i",
        "--sim-member=0.25", "--ngram-size=1", "--syn-member=2"] := by decide +kernel
  have hall : ∀ setting, setting ∈ changedLine.settings := by
    intro setting
    cases setting <;> decide
  refine ⟨hvalid, ?_⟩
  rw [← harguments]
  exact (parse_arguments changed hvalid changedLine).2 hall

end CommandLine

end EvalCharts
