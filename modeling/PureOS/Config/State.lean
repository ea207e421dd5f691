import PureOS.Foundation.Fields

set_option autoImplicit false

/-!
# Config: the configuration (`config.rs`)

`CONFIG`, its setters and presets, and the file format: a header of four bytes and ten fields
behind it.
-/

namespace PureOS.Config

open PureOS.Foundation

/-- `TerminalColors`. -/
structure TerminalColors where
  foregroundR : UInt8
  foregroundG : UInt8
  foregroundB : UInt8
  backgroundR : UInt8
  backgroundG : UInt8
  backgroundB : UInt8
  deriving DecidableEq

/-- `TerminalColors::default`. -/
def TerminalColors.default : TerminalColors := ⟨255, 255, 255, 0, 0, 0⟩

/-- `TerminalColors::light`. -/
def TerminalColors.light : TerminalColors := ⟨0, 0, 0, 255, 255, 255⟩

/-- `SystemConfig`. -/
structure SystemConfig where
  fontScale : UInt32
  selectedFont : UInt32
  terminalColors : TerminalColors
  shellPrompt : Vector UInt8 64
  maxProcesses : UInt64
  ephemeralLayerSize : UInt64
  enableGraphics : Bool
  bootDelayMs : UInt64
  mouseSensitivity : UInt32
  deriving DecidableEq

/-- The prompt that begins with some bytes and has zeros behind them. -/
def promptOf (bytes : List UInt8) : Vector UInt8 64 := .ofFn fun i => bytes.getD i 0

namespace SystemConfig

/-- `SystemConfig::default`. -/
def default : SystemConfig where
  fontScale := 1
  selectedFont := 0
  terminalColors := .default
  shellPrompt := promptOf (ascii "pureos$ ")
  maxProcesses := 64
  ephemeralLayerSize := 16 * 1024 * 1024
  enableGraphics := true
  bootDelayMs := 0
  mouseSensitivity := 5

/-! ## Setters -/

/-- `set_font_scale`. -/
def setFontScale (scale : UInt32) (c : SystemConfig) : SystemConfig := { c with fontScale := scale }

/-- `set_selected_font`. -/
def setSelectedFont (idx : UInt32) (c : SystemConfig) : SystemConfig :=
  if idx ≤ 7 then { c with selectedFont := idx } else c

/-- `set_terminal_colors`. -/
def setTerminalColors (colors : TerminalColors) (c : SystemConfig) : SystemConfig :=
  { c with terminalColors := colors }

/-- `set_shell_prompt`: at most 63 bytes and a zero behind them. -/
def setShellPrompt (prompt : List UInt8) (c : SystemConfig) : SystemConfig :=
  let len := min prompt.length 63
  { c with
    shellPrompt := .ofFn fun i =>
      if i.val < len then prompt.getD i 0 else if i.val = len then 0 else c.shellPrompt.get i }

/-- `set_max_processes`. -/
def setMaxProcesses (count : UInt64) (c : SystemConfig) : SystemConfig :=
  if count ≤ 64 ∧ count ≥ 1 then { c with maxProcesses := count } else c

/-- `set_ephemeral_layer_size`. -/
def setEphemeralLayerSize (size : UInt64) (c : SystemConfig) : SystemConfig :=
  if size ≥ 1024 * 1024 ∧ size ≤ 1024 * 1024 * 1024 then { c with ephemeralLayerSize := size } else c

/-- `set_graphics_enabled`. -/
def setGraphicsEnabled (enabled : Bool) (c : SystemConfig) : SystemConfig :=
  { c with enableGraphics := enabled }

/-- `set_mouse_sensitivity`. -/
def setMouseSensitivity (val : UInt32) (c : SystemConfig) : SystemConfig :=
  if val ≥ 1 ∧ val ≤ 9 then { c with mouseSensitivity := val } else c

/-- `set_boot_delay`. -/
def setBootDelay (delayMs : UInt64) (c : SystemConfig) : SystemConfig := { c with bootDelayMs := delayMs }

/-! ## Presets -/

/-- `apply_preset`: what is written to the terminal and the configuration afterwards. -/
def applyPreset (preset : List UInt8) (c : SystemConfig) : List UInt8 × SystemConfig :=
  if preset = ascii "default" then ([], default)
  else if preset = ascii "minimal" then
    ([], { c with
      fontScale := 1
      maxProcesses := 16
      ephemeralLayerSize := 8 * 1024 * 1024
      enableGraphics := false })
  else if preset = ascii "performance" then
    ([], { c with
      fontScale := 2
      maxProcesses := 64
      ephemeralLayerSize := 32 * 1024 * 1024
      enableGraphics := true })
  else if preset = ascii "light" then ([], { c with terminalColors := .light })
  else if preset = ascii "dark" then ([], { c with terminalColors := .default })
  else (ascii "Unknown preset: " ++ preset ++ [10], c)

/-! ## The file format -/

/-- The header: `PCF` and the version. -/
def magic : List UInt8 := [80, 67, 70, 1]

/-- The pieces that `save_config` puts one behind the other, with `off` running along. -/
def fields (c : SystemConfig) : List (List UInt8) :=
  [magic,
    toLE 4 c.fontScale.toNat,
    toLE 4 c.selectedFont.toNat,
    [c.terminalColors.foregroundR, c.terminalColors.foregroundG, c.terminalColors.foregroundB,
      c.terminalColors.backgroundR, c.terminalColors.backgroundG, c.terminalColors.backgroundB],
    c.shellPrompt.toList,
    toLE 8 c.maxProcesses.toNat,
    toLE 8 c.ephemeralLayerSize.toNat,
    [if c.enableGraphics then 1 else 0],
    toLE 8 c.bootDelayMs.toNat,
    toLE 4 c.mouseSensitivity.toNat]

/-- `&buf[..off]` at the end of `save_config`. -/
def serialize (c : SystemConfig) : List UInt8 := c.fields.flatten

/-- The part of `load_config` behind its checks.  There is no result if an index is out of
bounds. -/
def parse (data : List UInt8) : Option SystemConfig := do
  let off := 4
  let fontScale ← numberAt data off 4
  let off := off + 4
  let selectedFont ← numberAt data off 4
  let off := off + 4
  let colors ← fieldAt data off 6
  let off := off + 6
  let shellPrompt ← fieldAt data off 64
  let off := off + 64
  let maxProcesses ← numberAt data off 8
  let off := off + 8
  let ephemeralLayerSize ← numberAt data off 8
  let off := off + 8
  let enableGraphics ← numberAt data off 1
  let off := off + 1
  let bootDelayMs ← numberAt data off 8
  let off := off + 8
  let mouseSensitivity ← numberAt data off 4
  return {
    fontScale := .ofNat fontScale
    selectedFont := .ofNat selectedFont
    terminalColors := ⟨colors.getD 0 0, colors.getD 1 0, colors.getD 2 0, colors.getD 3 0,
      colors.getD 4 0, colors.getD 5 0⟩
    shellPrompt := promptOf shellPrompt
    maxProcesses := .ofNat maxProcesses
    ephemeralLayerSize := .ofNat ephemeralLayerSize
    enableGraphics := enableGraphics ≠ 0
    bootDelayMs := .ofNat bootDelayMs
    mouseSensitivity := .ofNat mouseSensitivity }

/-- `load_config` on the content of a file: the answer, what is written to the terminal and the
configuration afterwards.  There is no result if an index is out of bounds. -/
def loadData (data : List UInt8) (c : SystemConfig) : Option (Bool × List UInt8 × SystemConfig) :=
  if data.length < 4 ∨ data[0]? ≠ some 80 ∨ data[1]? ≠ some 67 ∨ data[2]? ≠ some 70 ∨
      data[3]? ≠ some 1 then
    some (false, ascii "config: bad format\n", c)
  else if data.length < 104 then some (false, ascii "config: truncated\n", c)
  else
    (parse data).map fun c => (true, ascii "Configuration loaded from /etc/pureos.conf\n", c)

/-! ## Reading and writing files -/

variable {data : List UInt8}

/-- The bytes of a field of the file. -/
def field (data : List UInt8) (off n : Nat) : List UInt8 := (data.drop off).take n

theorem parse_of_le (h : 111 ≤ data.length) :
    parse data = some {
      fontScale := .ofNat (fromLE (field data 4 4))
      selectedFont := .ofNat (fromLE (field data 8 4))
      terminalColors := ⟨(field data 12 6).getD 0 0, (field data 12 6).getD 1 0,
        (field data 12 6).getD 2 0, (field data 12 6).getD 3 0, (field data 12 6).getD 4 0,
        (field data 12 6).getD 5 0⟩
      shellPrompt := promptOf (field data 18 64)
      maxProcesses := .ofNat (fromLE (field data 82 8))
      ephemeralLayerSize := .ofNat (fromLE (field data 90 8))
      enableGraphics := fromLE (field data 98 1) ≠ 0
      bootDelayMs := .ofNat (fromLE (field data 99 8))
      mouseSensitivity := .ofNat (fromLE (field data 107 4)) } := by
  unfold parse
  dsimp only
  simp (disch := omega) only [numberAt_of_le, fieldAt_of_le, Option.bind_eq_bind, Option.bind_some]
  rfl

/-- The last field ends at 111, which `load_config` does not check. -/
theorem parse_of_lt (h : data.length < 111) : parse data = none := by
  unfold parse
  dsimp only
  simp only [numberAt_of_lt (show data.length < 4 + 4 + 4 + 6 + 64 + 8 + 8 + 1 + 8 + 4 by omega),
    Option.bind_eq_bind, Option.bind_none, Option.bind_fun_none]

theorem length_serialize (c : SystemConfig) : c.serialize.length = 111 := by
  simp [serialize, fields, magic]

theorem field_serialize (c : SystemConfig) {i off n : Nat} {piece : List UInt8}
    (hpiece : c.fields[i]? = some piece) (hoff : (c.fields.take i).flatten.length = off)
    (hn : piece.length = n) : field c.serialize off n = piece := by
  rw [← hn]
  exact drop_take_flatten hpiece hoff

theorem promptOf_toList (prompt : Vector UInt8 64) : promptOf prompt.toList = prompt := by
  ext i hi
  simp [promptOf]

/-- What `save_config` writes is read back as it was. -/
theorem parse_serialize (c : SystemConfig) : parse c.serialize = some c := by
  have hfont : field c.serialize 4 4 = toLE 4 c.fontScale.toNat :=
    c.field_serialize (i := 1) rfl (by simp [fields, magic]) (length_toLE _ _)
  have hselected : field c.serialize 8 4 = toLE 4 c.selectedFont.toNat :=
    c.field_serialize (i := 2) rfl (by simp [fields, magic]) (length_toLE _ _)
  have hcolors : field c.serialize 12 6 = [c.terminalColors.foregroundR,
      c.terminalColors.foregroundG, c.terminalColors.foregroundB, c.terminalColors.backgroundR,
      c.terminalColors.backgroundG, c.terminalColors.backgroundB] :=
    c.field_serialize (i := 3) rfl (by simp [fields, magic]) rfl
  have hprompt : field c.serialize 18 64 = c.shellPrompt.toList :=
    c.field_serialize (i := 4) rfl (by simp [fields, magic]) (by simp)
  have hprocesses : field c.serialize 82 8 = toLE 8 c.maxProcesses.toNat :=
    c.field_serialize (i := 5) rfl (by simp [fields, magic]) (length_toLE _ _)
  have hlayer : field c.serialize 90 8 = toLE 8 c.ephemeralLayerSize.toNat :=
    c.field_serialize (i := 6) rfl (by simp [fields, magic]) (length_toLE _ _)
  have hgraphics : field c.serialize 98 1 = [if c.enableGraphics then 1 else 0] :=
    c.field_serialize (i := 7) rfl (by simp [fields, magic]) rfl
  have hdelay : field c.serialize 99 8 = toLE 8 c.bootDelayMs.toNat :=
    c.field_serialize (i := 8) rfl (by simp [fields, magic]) (length_toLE _ _)
  have hmouse : field c.serialize 107 4 = toLE 4 c.mouseSensitivity.toNat :=
    c.field_serialize (i := 9) rfl (by simp [fields, magic]) (length_toLE _ _)
  have hflag : decide (fromLE [if c.enableGraphics then (1 : UInt8) else 0] ≠ 0) = c.enableGraphics := by
    cases c.enableGraphics
    · rfl
    · rfl
  rw [parse_of_le (c.length_serialize).ge, hfont, hselected, hcolors, hprompt, hprocesses, hlayer,
    hgraphics, hdelay, hmouse, promptOf_toList, hflag]
  simp only [fromLE_toLE]
  have h32 (n : UInt32) : UInt32.ofNat (n.toNat % 256 ^ 4) = n := by
    rw [Nat.mod_eq_of_lt (by simpa using n.toNat_lt), UInt32.ofNat_toNat]
  have h64 (n : UInt64) : UInt64.ofNat (n.toNat % 256 ^ 8) = n := by
    rw [Nat.mod_eq_of_lt (by simpa using n.toNat_lt), UInt64.ofNat_toNat]
  rw [h32, h32, h32, h64, h64, h64]
  rfl

/-- The header of the file is right. -/
def HasMagic (data : List UInt8) : Prop :=
  4 ≤ data.length ∧ data[0]? = some 80 ∧ data[1]? = some 67 ∧ data[2]? = some 70 ∧ data[3]? = some 1

theorem loadData_of_not_magic (h : ¬HasMagic data) (c : SystemConfig) :
    loadData data c = some (false, ascii "config: bad format
", c) := by
  rw [loadData, if_pos]
  by_contra hnot
  simp only [not_or, not_not, Nat.not_lt] at hnot
  exact h hnot

theorem loadData_of_magic (h : HasMagic data) (c : SystemConfig) :
    loadData data c =
      if data.length < 104 then some (false, ascii "config: truncated
", c)
      else (parse data).map fun c => (true, ascii "Configuration loaded from /etc/pureos.conf
", c) := by
  obtain ⟨hlen, hp, hc, hf, hv⟩ := h
  rw [loadData, if_neg]
  rintro (hshort | hne | hne | hne | hne)
  · omega
  · exact hne hp
  · exact hne hc
  · exact hne hf
  · exact hne hv

/-- Behind a right header the file breaks off between the two lengths. -/
def Truncated (data : List UInt8) : Prop := HasMagic data ∧ 104 ≤ data.length ∧ data.length < 111

/-- `load_config` comes back from every file but those. -/
theorem loadData_isSome_iff (c : SystemConfig) :
    (loadData data c).isSome = true ↔ ¬Truncated data := by
  by_cases h : HasMagic data
  · rw [loadData_of_magic h]
    split
    · rename_i hshort
      exact iff_of_true rfl fun htrunc => absurd htrunc.2.1 (Nat.not_le.mpr hshort)
    · rename_i hlong
      rw [Option.isSome_map]
      rcases Nat.lt_or_ge data.length 111 with hlt | hge
      · rw [parse_of_lt hlt]
        exact iff_of_false (fun hnone => by cases hnone)
          fun hnot => hnot ⟨h, Nat.not_lt.mp hlong, hlt⟩
      · rw [parse_of_le hge]
        exact iff_of_true rfl fun htrunc => absurd htrunc.2.2 (Nat.not_lt.mpr hge)
  · rw [loadData_of_not_magic h]
    exact iff_of_true rfl fun htrunc => h htrunc.1

/-- A load that is refused leaves the configuration as it was. -/
theorem loadData_refused {c c' : SystemConfig} {text : List UInt8}
    (h : loadData data c = some (false, text, c')) : c' = c := by
  by_cases hm : HasMagic data
  · rw [loadData_of_magic hm] at h
    split at h
    · cases h
      rfl
    · obtain ⟨_, -, heq⟩ := Option.map_eq_some_iff.mp h
      cases heq
  · rw [loadData_of_not_magic hm] at h
    cases h
    rfl

/-- A load that succeeds sets what the file says. -/
theorem loadData_loaded {c c' : SystemConfig} {text : List UInt8}
    (h : loadData data c = some (true, text, c')) : parse data = some c' := by
  by_cases hm : HasMagic data
  · rw [loadData_of_magic hm] at h
    split at h
    · cases h
    · obtain ⟨c'', hparse, heq⟩ := Option.map_eq_some_iff.mp h
      cases heq
      exact hparse
  · rw [loadData_of_not_magic hm] at h
    cases h

theorem hasMagic_serialize (c : SystemConfig) : HasMagic c.serialize := by
  refine ⟨by rw [length_serialize]; omega, ?_, ?_, ?_, ?_⟩ <;> rfl

theorem loadData_serialize (c c' : SystemConfig) :
    loadData c.serialize c' =
      some (true, ascii "Configuration loaded from /etc/pureos.conf
", c) := by
  rw [loadData_of_magic c.hasMagic_serialize, length_serialize, if_neg (by decide), parse_serialize]
  rfl

end SystemConfig

end PureOS.Config
