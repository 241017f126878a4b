import Mathlib.Data.List.Iterate
import MyosIo.Keyboard.Model

/-! How `keyboard_isr` makes a key code out of the bytes it reads from port 0x60. Both maps are
declared with `UINT8_MAX` entries, one less than there are bytes. -/
namespace MyosIo.Keyboard

/-- `KEY_NUM`. -/
def keyNum : ℕ := 101

/-- The keys in the order of the source's enumeration, the keypad's with `kp`. -/
inductive Key
  | a | b | c | d | e | f | g | h | i | j | k | l | m
  | n | o | p | q | r | s | t | u | v | w | x | y | z
  | f1 | f2 | f3 | f4 | f5 | f6 | f7 | f8 | f9 | f10 | f11 | f12
  | d1 | d2 | d3 | d4 | d5 | d6 | d7 | d8 | d9 | d0
  | kp1 | kp2 | kp3 | kp4 | kp5 | kp6 | kp7 | kp8 | kp9 | kp0
  | esc | prtsc | scrlk | pause | insert | home | pageUp | del | endKey | pageDown
  | backQuote | sub | equ | back
  | tab | openBracket | closeBracket | backslash
  | cap | semicolon | quote | enter
  | leftShift | comma | dot | slash | rightShift
  | leftCtrl | leftAlt | space | rightAlt | rightCtrl
  | cursorUp | cursorDown | cursorLeft | cursorRight
  | kpNum | kpSlash | kpAsterisk | kpSub | kpAdd | kpEnter | kpDot

namespace Key

def num (key : Key) : ℕ := key.ctorIdx + 1

def press (key : Key) : Code := UInt16.ofNat key.num <<< 1 ||| 1

def release (key : Key) : Code := UInt16.ofNat key.num <<< 1

end Key

/-- A map of `UINT8_MAX` entries: the listed keys pressed, and released 0x80 further on. -/
def scanMap (keys : List (ℕ × Key)) : List Code :=
  (List.range 255).map fun i =>
    match keys.lookup (i % 0x80) with
    | none => 0
    | some key => if i < 0x80 then key.press else key.release

def ps2Set1Map : List Code := scanMap
  [(0x01, .esc), (0x02, .d1), (0x03, .d2), (0x04, .d3), (0x05, .d4), (0x06, .d5), (0x07, .d6),
    (0x08, .d7), (0x09, .d8), (0x0a, .d9), (0x0b, .d0), (0x0c, .sub), (0x0d, .equ), (0x0e, .back),
    (0x0f, .tab), (0x10, .q), (0x11, .w), (0x12, .e), (0x13, .r), (0x14, .t), (0x15, .y),
    (0x16, .u), (0x17, .i), (0x18, .o), (0x19, .p), (0x1a, .openBracket), (0x1b, .closeBracket),
    (0x1c, .enter), (0x1d, .leftCtrl), (0x1e, .a), (0x1f, .s), (0x20, .d), (0x21, .f), (0x22, .g),
    (0x23, .h), (0x24, .j), (0x25, .k), (0x26, .l), (0x27, .semicolon), (0x28, .quote),
    (0x29, .backQuote), (0x2a, .leftShift), (0x2b, .backslash), (0x2c, .z), (0x2d, .x),
    (0x2e, .c), (0x2f, .v), (0x30, .b), (0x31, .n), (0x32, .m), (0x33, .comma), (0x34, .dot),
    (0x35, .slash), (0x36, .rightShift), (0x37, .kpAsterisk), (0x38, .leftAlt), (0x39, .space),
    (0x3a, .cap), (0x3b, .f1), (0x3c, .f2), (0x3d, .f3), (0x3e, .f4), (0x3f, .f5), (0x40, .f6),
    (0x41, .f7), (0x42, .f8), (0x43, .f9), (0x44, .f10), (0x45, .kpNum), (0x46, .scrlk),
    (0x47, .kp7), (0x48, .kp8), (0x49, .kp9), (0x4a, .kpSub), (0x4b, .kp4), (0x4c, .kp5),
    (0x4d, .kp6), (0x4e, .kpAdd), (0x4f, .kp1), (0x50, .kp2), (0x51, .kp3), (0x52, .kp0),
    (0x53, .kpDot), (0x57, .f11), (0x58, .f12)]

def ps2Set1Map2 : List Code := scanMap
  [(0x1c, .kpEnter), (0x1d, .rightCtrl), (0x35, .kpSlash), (0x38, .rightAlt), (0x47, .home),
    (0x48, .cursorUp), (0x49, .pageUp), (0x4b, .cursorLeft), (0x4d, .cursorRight),
    (0x4f, .endKey), (0x50, .cursorDown), (0x51, .pageDown), (0x52, .insert), (0x53, .del)]

/-- Where `key_code` comes from: a sequence of its own or a map, if not to `label_abort`. -/
inductive Found
  | code (key : Code)
  | lookup (map : List Code) (scanCode : UInt8)
  | abort

/-- The bytes that have to follow, one `inb` and one comparison each. -/
def expect (port : ℕ → UInt8) : ℕ → List UInt8 → Code → Found × ℕ
  | i, [], key => (.code key, i)
  | i, b :: bs, key => if port i ≠ b then (.abort, i + 1) else expect port (i + 1) bs key

/-- The bytes read for one interrupt, from the `i`-th on, with the index of the next one. -/
def scan (port : ℕ → UInt8) (i : ℕ) : Found × ℕ :=
  if port i = 0xE0 then
    if port (i + 1) = 0x2A then expect port (i + 2) [0xE0, 0x37] Key.prtsc.press
    else if port (i + 1) = 0xB7 then expect port (i + 2) [0xE0, 0xAA] Key.prtsc.release
    else (.lookup ps2Set1Map2 (port (i + 1)), i + 2)
  else if port i = 0xE1 then
    expect port (i + 1) [0x1D, 0x45, 0xE1, 0x9D, 0xC5] Key.pause.press
  else (.lookup ps2Set1Map (port i), i + 1)

/-- What `key_code` may be; behind the end of a map it may be anything. -/
def Found.Gives : Found → Code → Prop
  | .code key, c => c = key
  | .lookup map scanCode, c => ∀ h : scanCode.toNat < map.length, c = map[scanCode.toNat]
  | .abort, _ => False

def Found.Inside : Found → Prop
  | .lookup map scanCode => scanCode.toNat < map.length
  | _ => True

/-- The press or release of one of the keys. -/
def IsKeyCode (c : Code) : Prop :=
  ∃ k, 1 ≤ k ∧ k ≤ keyNum ∧ (c.toNat = k * 2 ∨ c.toNat = k * 2 + 1)

/-- The byte that is looked up for an interrupt is not 0xFF. -/
def Clean (port : ℕ → UInt8) (i : ℕ) : Prop :=
  port i ≠ 0xFF ∧ (port i = 0xE0 → port (i + 1) ≠ 0xFF)

/-- The key code of an interrupt, 0 if there is none. -/
def Found.keyCode : Found → Code
  | .code key => key
  | .lookup map scanCode => map.getD scanCode.toNat 0
  | .abort => 0

/-- The key codes that the interrupts with their first bytes at `scans` come to. -/
def keyCodes (port : ℕ → UInt8) (scans : List ℕ) : List Code :=
  (scans.map fun i => (scan port i).1.keyCode).filter (· ≠ 0)

/-- Where the bytes of the first `n` interrupts begin. -/
def starts (port : ℕ → UInt8) (n : ℕ) : List ℕ := List.iterate (fun i => (scan port i).2) 0 n

variable {port : ℕ → UInt8} {i : ℕ} {c : Code}

theorem keyCodes_append (is js : List ℕ) :
    keyCodes port (is ++ js) = keyCodes port is ++ keyCodes port js := by
  simp [keyCodes]

theorem Found.Gives.keyCode {f : Found} (hg : f.Gives c) (hf : f.Inside) : f.keyCode = c := by
  cases f with
  | code key => exact hg.symm
  | lookup map scanCode =>
    rw [hg hf, Found.keyCode, List.getD_eq_getElem?_getD, List.getElem?_eq_getElem hf,
      Option.getD_some]
  | abort => exact hg.elim

theorem isKeyCode_press (key : Key) : IsKeyCode key.press :=
  ⟨key.num, by cases key <;> decide, by cases key <;> decide, .inr (by cases key <;> rfl)⟩

theorem isKeyCode_release (key : Key) : IsKeyCode key.release :=
  ⟨key.num, by cases key <;> decide, by cases key <;> decide, .inl (by cases key <;> rfl)⟩

@[simp] theorem length_scanMap (keys : List (ℕ × Key)) : (scanMap keys).length = 255 := by
  simp [scanMap]

theorem scanMap_get {keys : List (ℕ × Key)} {n : ℕ} (h : n < (scanMap keys).length)
    (hc : (scanMap keys)[n] ≠ 0) : IsKeyCode (scanMap keys)[n] := by
  simp only [scanMap, List.getElem_map, List.getElem_range] at hc ⊢
  cases hk : keys.lookup (n % 0x80) with
  | none => simp [hk] at hc
  | some key =>
    dsimp only
    split
    · exact isKeyCode_press key
    · exact isKeyCode_release key

theorem lt_255_iff (b : UInt8) : b.toNat < 255 ↔ b ≠ 0xFF := by
  rw [ne_eq, ← UInt8.toNat_inj]
  have := b.toNat_lt
  change _ ↔ ¬ b.toNat = 255
  omega

theorem expect_spec (i : ℕ) (bs : List UInt8) (key : Code) :
    (expect port i bs key).1 = .abort ∨ (expect port i bs key).1 = .code key := by
  induction bs generalizing i with
  | nil => exact .inr rfl
  | cons b bs ih =>
    rw [expect]
    split
    · exact .inl rfl
    · exact ih (i + 1)

/-- One of the sequences of several bytes, or a lookup in one of the two maps. -/
theorem scan_cases (port : ℕ → UInt8) (i : ℕ) :
    ((scan port i).1 = .abort ∨ ∃ key, (scan port i).1 = .code key ∧ IsKeyCode key) ∧
        Clean port i ∨
      (∃ keys b, (scan port i).1 = .lookup (scanMap keys) b ∧ (Clean port i ↔ b ≠ 0xFF)) := by
  unfold scan Clean
  by_cases h₀ : port i = 0xE0
  · rw [if_pos h₀, h₀]
    by_cases h₁ : port (i + 1) = 0x2A
    · rw [if_pos h₁, h₁]
      left
      refine ⟨(expect_spec _ _ _).imp_right fun h => ⟨_, h, isKeyCode_press _⟩, by decide⟩
    rw [if_neg h₁]
    by_cases h₂ : port (i + 1) = 0xB7
    · rw [if_pos h₂, h₂]
      left
      refine ⟨(expect_spec _ _ _).imp_right fun h => ⟨_, h, isKeyCode_release _⟩, by decide⟩
    rw [if_neg h₂]
    exact .inr ⟨_, _, rfl, fun h => h.2 rfl, fun h => ⟨by decide, fun _ => h⟩⟩
  rw [if_neg h₀]
  by_cases h₁ : port i = 0xE1
  · rw [if_pos h₁, h₁]
    left
    exact ⟨(expect_spec _ _ _).imp_right fun h => ⟨_, h, isKeyCode_press _⟩, by decide, nofun⟩
  rw [if_neg h₁]
  exact .inr ⟨_, _, rfl, fun h => h.1, fun h => ⟨h, fun hE => absurd hE h₀⟩⟩

/-- The lookup is within the map if and only if the byte is not 0xFF. -/
theorem scan_inside_iff : (scan port i).1.Inside ↔ Clean port i := by
  obtain ⟨habort | ⟨key, hcode, -⟩, hclean⟩ | ⟨keys, b, hlookup, hclean⟩ := scan_cases port i
  · rw [habort]
    exact iff_of_true trivial hclean
  · rw [hcode]
    exact iff_of_true trivial hclean
  · rw [hlookup, hclean, ← lt_255_iff]
    change b.toNat < (scanMap keys).length ↔ _
    rw [length_scanMap]

/-- A code that is not 0 is one of a key. -/
theorem scan_isKeyCode (h : Clean port i) (hg : (scan port i).1.Gives c) (hc : c ≠ 0) :
    IsKeyCode c := by
  have hinside := scan_inside_iff.mpr h
  obtain ⟨habort | ⟨key, hcode, hkey⟩, -⟩ | ⟨keys, b, hlookup, -⟩ := scan_cases port i
  · rw [habort] at hg
    exact hg.elim
  · rw [hcode] at hg
    exact hg ▸ hkey
  · rw [hlookup] at hg hinside
    obtain rfl := hg hinside
    exact scanMap_get hinside hc

end MyosIo.Keyboard
