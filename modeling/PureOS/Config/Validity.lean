import PureOS.Config.State
import PureOS.Foundation.Run

set_option autoImplicit false

/-!
# Config: the bounds of the configuration

The setters check what they are given.  `set_config` and `load_config` do not, and put any value
into the fields that the setters bound.
-/

namespace PureOS.Config

open PureOS.Foundation

namespace SystemConfig

/-- The bounds that the setters enforce. -/
structure Valid (c : SystemConfig) : Prop where
  processes : 1 ≤ c.maxProcesses.toNat ∧ c.maxProcesses.toNat ≤ 64
  mouse : 1 ≤ c.mouseSensitivity.toNat ∧ c.mouseSensitivity.toNat ≤ 9
  font : c.selectedFont.toNat ≤ 7
  layer : 1024 * 1024 ≤ c.ephemeralLayerSize.toNat ∧
    c.ephemeralLayerSize.toNat ≤ 1024 * 1024 * 1024

/-- The four bounded fields of a file are within their bounds. -/
structure InBounds (data : List UInt8) : Prop where
  processes : 1 ≤ fromLE (field data 82 8) ∧ fromLE (field data 82 8) ≤ 64
  mouse : 1 ≤ fromLE (field data 107 4) ∧ fromLE (field data 107 4) ≤ 9
  font : fromLE (field data 8 4) ≤ 7
  layer : 1024 * 1024 ≤ fromLE (field data 90 8) ∧ fromLE (field data 90 8) ≤ 1024 * 1024 * 1024

end SystemConfig

/-- The calls that write to the configuration.  `load` has the content of the file, if there is
one. -/
inductive ConfigCall where
  | setConfig (config : SystemConfig)
  | setFontScale (scale : UInt32)
  | setSelectedFont (idx : UInt32)
  | setTerminalColors (colors : TerminalColors)
  | setShellPrompt (prompt : List UInt8)
  | setMaxProcesses (count : UInt64)
  | setEphemeralLayerSize (size : UInt64)
  | setGraphicsEnabled (enabled : Bool)
  | setMouseSensitivity (val : UInt32)
  | setBootDelay (delayMs : UInt64)
  | applyPreset (preset : List UInt8)
  | resetConfig
  | saveConfig
  | loadConfig (content : Option (List UInt8))

namespace SystemConfig

/-- What a call does to the configuration, if it comes back. -/
def call (c : SystemConfig) : ConfigCall → Option SystemConfig
  | .setConfig config => some config
  | .setFontScale scale => some (c.setFontScale scale)
  | .setSelectedFont idx => some (c.setSelectedFont idx)
  | .setTerminalColors colors => some (c.setTerminalColors colors)
  | .setShellPrompt prompt => some (c.setShellPrompt prompt)
  | .setMaxProcesses count => some (c.setMaxProcesses count)
  | .setEphemeralLayerSize size => some (c.setEphemeralLayerSize size)
  | .setGraphicsEnabled enabled => some (c.setGraphicsEnabled enabled)
  | .setMouseSensitivity val => some (c.setMouseSensitivity val)
  | .setBootDelay delayMs => some (c.setBootDelay delayMs)
  | .applyPreset preset => some (c.applyPreset preset).2
  | .resetConfig => some default
  | .saveConfig => some c
  | .loadConfig none => some c
  | .loadConfig (some data) => (loadData data c).map fun r => r.2.2

/-- A step of the configuration under a call. -/
def Step (c : SystemConfig) (call : ConfigCall) (c' : SystemConfig) : Prop := c.call call = some c'

end SystemConfig

/-- A call that is given values within the bounds where it does not check them. -/
def ConfigCall.Careful : ConfigCall → Prop
  | .setConfig config => config.Valid
  | .loadConfig (some data) =>
      SystemConfig.HasMagic data → 111 ≤ data.length → SystemConfig.InBounds data
  | _ => True

namespace SystemConfig

variable {c c' : SystemConfig}

theorem valid_default : default.Valid := by
  refine ⟨?_, ?_, ?_, ?_⟩ <;> decide

theorem Valid.setSelectedFont (h : c.Valid) (idx : UInt32) : (c.setSelectedFont idx).Valid := by
  unfold SystemConfig.setSelectedFont
  split
  · rename_i hle
    exact { h with font := UInt32.le_iff_toNat_le.mp hle }
  · exact h

theorem Valid.setMaxProcesses (h : c.Valid) (count : UInt64) : (c.setMaxProcesses count).Valid := by
  unfold SystemConfig.setMaxProcesses
  split
  · rename_i hcount
    exact { h with
      processes := ⟨UInt64.le_iff_toNat_le.mp hcount.2, UInt64.le_iff_toNat_le.mp hcount.1⟩ }
  · exact h

theorem Valid.setEphemeralLayerSize (h : c.Valid) (size : UInt64) :
    (c.setEphemeralLayerSize size).Valid := by
  unfold SystemConfig.setEphemeralLayerSize
  split
  · rename_i hsize
    exact { h with
      layer := ⟨UInt64.le_iff_toNat_le.mp hsize.1, UInt64.le_iff_toNat_le.mp hsize.2⟩ }
  · exact h

theorem Valid.setMouseSensitivity (h : c.Valid) (val : UInt32) :
    (c.setMouseSensitivity val).Valid := by
  unfold SystemConfig.setMouseSensitivity
  split
  · rename_i hval
    exact { h with mouse := ⟨UInt32.le_iff_toNat_le.mp hval.1, UInt32.le_iff_toNat_le.mp hval.2⟩ }
  · exact h

theorem Valid.setShellPrompt (h : c.Valid) (prompt : List UInt8) : (c.setShellPrompt prompt).Valid := by
  unfold SystemConfig.setShellPrompt
  obtain ⟨hprocesses, hmouse, hfont, hlayer⟩ := h
  constructor
  · dsimp only
    exact hprocesses
  · dsimp only
    exact hmouse
  · dsimp only
    exact hfont
  · dsimp only
    exact hlayer

/-- A preset sets the bounded fields to values within the bounds, if at all. -/
theorem Valid.applyPreset (h : c.Valid) (preset : List UInt8) : (c.applyPreset preset).2.Valid := by
  unfold SystemConfig.applyPreset
  split
  · exact valid_default
  split
  · have hprocesses : 1 ≤ (16 : UInt64).toNat ∧ (16 : UInt64).toNat ≤ 64 := by decide
    have hlayer : 1024 * 1024 ≤ (8 * 1024 * 1024 : UInt64).toNat ∧
        (8 * 1024 * 1024 : UInt64).toNat ≤ 1024 * 1024 * 1024 := by decide
    exact ⟨hprocesses, h.mouse, h.font, hlayer⟩
  split
  · have hprocesses : 1 ≤ (64 : UInt64).toNat ∧ (64 : UInt64).toNat ≤ 64 := by decide
    have hlayer : 1024 * 1024 ≤ (32 * 1024 * 1024 : UInt64).toNat ∧
        (32 * 1024 * 1024 : UInt64).toNat ≤ 1024 * 1024 * 1024 := by decide
    exact ⟨hprocesses, h.mouse, h.font, hlayer⟩
  split
  · exact { h with }
  split
  · exact { h with }
  · exact h

theorem fromLE_field_lt (data : List UInt8) (off n : Nat) : fromLE (field data off n) < 256 ^ n := by
  have hlen : (field data off n).length ≤ n := List.length_take_le _ _
  exact (fromLE_lt _).trans_le (Nat.pow_le_pow_right (by decide) hlen)

/-- A file within the bounds makes a valid configuration. -/
theorem InBounds.valid {data : List UInt8} (h : InBounds data) (hparse : parse data = some c) :
    c.Valid := by
  rcases Nat.lt_or_ge data.length 111 with hlt | hge
  · rw [parse_of_lt hlt] at hparse
    cases hparse
  rw [parse_of_le hge] at hparse
  cases hparse
  have h64 (off : Nat) : (UInt64.ofNat (fromLE (field data off 8))).toNat = fromLE (field data off 8) :=
    Nat.mod_eq_of_lt (fromLE_field_lt data off 8)
  have h32 (off : Nat) : (UInt32.ofNat (fromLE (field data off 4))).toNat = fromLE (field data off 4) :=
    Nat.mod_eq_of_lt (fromLE_field_lt data off 4)
  refine ⟨?_, ?_, ?_, ?_⟩
  · rw [h64]
    exact h.processes
  · rw [h32]
    exact h.mouse
  · rw [h32]
    exact h.font
  · rw [h64]
    exact h.layer

/-- Every careful call keeps the bounds. -/
theorem Valid.step (h : c.Valid) {call : ConfigCall} (hstep : c.Step call c') (careful : call.Careful) :
    c'.Valid := by
  cases call with
  | setConfig config =>
      rw [Step, SystemConfig.call, Option.some.injEq] at hstep
      subst hstep
      exact careful
  | setFontScale scale =>
      rw [Step, SystemConfig.call, Option.some.injEq] at hstep
      subst hstep
      exact { h with }
  | setSelectedFont idx =>
      rw [Step, SystemConfig.call, Option.some.injEq] at hstep
      subst hstep
      exact h.setSelectedFont idx
  | setTerminalColors colors =>
      rw [Step, SystemConfig.call, Option.some.injEq] at hstep
      subst hstep
      exact { h with }
  | setShellPrompt prompt =>
      rw [Step, SystemConfig.call, Option.some.injEq] at hstep
      rw [← hstep]
      exact h.setShellPrompt prompt
  | setMaxProcesses count =>
      rw [Step, SystemConfig.call, Option.some.injEq] at hstep
      subst hstep
      exact h.setMaxProcesses count
  | setEphemeralLayerSize size =>
      rw [Step, SystemConfig.call, Option.some.injEq] at hstep
      subst hstep
      exact h.setEphemeralLayerSize size
  | setGraphicsEnabled enabled =>
      rw [Step, SystemConfig.call, Option.some.injEq] at hstep
      subst hstep
      exact { h with }
  | setMouseSensitivity val =>
      rw [Step, SystemConfig.call, Option.some.injEq] at hstep
      subst hstep
      exact h.setMouseSensitivity val
  | setBootDelay delayMs =>
      rw [Step, SystemConfig.call, Option.some.injEq] at hstep
      subst hstep
      exact { h with }
  | applyPreset preset =>
      rw [Step, SystemConfig.call, Option.some.injEq] at hstep
      subst hstep
      exact h.applyPreset preset
  | resetConfig =>
      rw [Step, SystemConfig.call, Option.some.injEq] at hstep
      subst hstep
      exact valid_default
  | saveConfig =>
      rw [Step, SystemConfig.call, Option.some.injEq] at hstep
      subst hstep
      exact h
  | loadConfig content =>
      cases content with
      | none =>
          rw [Step, SystemConfig.call, Option.some.injEq] at hstep
          subst hstep
          exact h
      | some data =>
          obtain ⟨⟨ok, text, c''⟩, hload, rfl⟩ := Option.map_eq_some_iff.mp hstep
          cases ok with
          | false => rwa [loadData_refused hload]
          | true =>
              have hparse := loadData_loaded hload
              have hmagic : HasMagic data := by
                by_contra hnot
                rw [loadData_of_not_magic hnot] at hload
                cases hload
              have hlen : 111 ≤ data.length := by
                by_contra hshort
                rw [parse_of_lt (Nat.not_le.mp hshort)] at hparse
                cases hparse
              exact (careful hmagic hlen).valid hparse

end SystemConfig

open SystemConfig in
/-- In every run from the default in which no file and no whole configuration comes with a value
out of bounds, the configuration is within its bounds; and a load that is refused leaves it as it
is in any case. -/
theorem valid_of_careful_run {c : SystemConfig} {calls : List ConfigCall}
    (run : Run (fun c call c' => Step c call c' ∧ call.Careful) default calls c) :
    c.Valid ∧ ∀ (data text : List UInt8) (c' : SystemConfig),
      loadData data c = some (false, text, c') → c' = c := by
  refine ⟨?_, fun data text c' h => loadData_refused h⟩
  refine run.invariant_state Valid valid_default ?_
  rintro c call c' h ⟨hstep, careful⟩
  exact h.step hstep careful

open SystemConfig in
/-- A whole configuration, a file that is refused, a setter that refuses its value, and a file that
is loaded. -/
theorem valid_of_careful_run_setters :
    (default.setMouseSensitivity 9).Valid ∧
      ∀ (data text : List UInt8) (c' : SystemConfig),
        loadData data (default.setMouseSensitivity 9) = some (false, text, c') →
          c' = default.setMouseSensitivity 9 := by
  let whole : SystemConfig := { default with maxProcesses := 2, selectedFont := 7 }
  let file := (default.setMouseSensitivity 9).serialize
  refine @valid_of_careful_run _
    [.setConfig whole, .loadConfig (some [80, 67]), .setMaxProcesses 0, .loadConfig (some file)] ?_
  have hwhole : Run (fun c call c' => Step c call c' ∧ call.Careful) default [.setConfig whole]
      whole := .snoc (h := []) .nil ⟨rfl, by refine ⟨?_, ?_, ?_, ?_⟩ <;> decide⟩
  have hrefused : Run (fun c call c' => Step c call c' ∧ call.Careful) default
      [.setConfig whole, .loadConfig (some [80, 67])] whole :=
    hwhole.snoc ⟨rfl, fun hmagic => absurd hmagic.1 (by decide)⟩
  have hsame : Run (fun c call c' => Step c call c' ∧ call.Careful) default
      [.setConfig whole, .loadConfig (some [80, 67]), .setMaxProcesses 0] whole :=
    hrefused.snoc ⟨rfl, trivial⟩
  refine hsame.snoc ⟨?_, fun _ _ => ?_⟩
  · rw [Step, SystemConfig.call, loadData_serialize]
    rfl
  · refine ⟨?_, ?_, ?_, ?_⟩ <;> decide +kernel

/-- A file whose bytes behind the header are all zero. -/
def zeroFile : List UInt8 := SystemConfig.magic ++ .replicate 107 0

open SystemConfig in
/-- The file of zeros is loaded, and no process is allowed any more. -/
theorem not_valid_of_run : ¬∀ (c : SystemConfig) (calls : List ConfigCall),
    Run Step default calls c → c.Valid := by
  intro hall
  have hlen : zeroFile.length = 111 := rfl
  have hstep (c : SystemConfig) (hparse : parse zeroFile = some c) :
      Step default (.loadConfig (some zeroFile)) c := by
    rw [Step, SystemConfig.call, loadData_of_magic (by refine ⟨?_, ?_, ?_, ?_, ?_⟩ <;> decide), hlen,
      if_neg (by decide), hparse]
    rfl
  have hvalid := hall _ _ (.snoc (h := []) .nil (hstep _ (parse_of_le hlen.ge)))
  exact absurd hvalid.processes.1 (by decide +kernel)

end PureOS.Config
