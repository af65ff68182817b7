import Mathlib.Data.List.Basic
import Mathlib.Logic.Function.Basic

/-! # The graphical terminal

`gtty.c`: what the keyboard delivers is collected in one input buffer, and what
programs and the kernel write goes to the screen. A backspace that is written to
the screen also takes the last character out of the input buffer. What the VGA
and VESA drivers draw is not modelled, and neither are the colours. -/

namespace Dbos.Terminal

/-- `GTTY_INPUT_BUFFER_LEN`. -/
def gttyInputBufferLen : Nat := 1024

/-- `'\b'`. -/
def backspace : UInt8 := 8

/-- `'\t'`. -/
def tab : UInt8 := 9

/-- `'\n'`. -/
def newline : UInt8 := 10

/-- `'\r'`. -/
def carriageReturn : UInt8 := 13

def endsLine (c : UInt8) : Bool := c = newline || c = carriageReturn

/-- `GTTY_DISP_TYPE_*`. -/
inductive DisplayType where
  | vga
  | vesa
deriving DecidableEq, Repr

/-- `GTTY_MODE_*`. -/
inductive DisplayMode where
  | txt
  | px
deriving DecidableEq, Repr

/-- The `input_buffer` variables. Beyond its 1024 bytes the buffer is followed by
whatever else is in the kernel heap. -/
structure Input where
  buffer : Nat → UInt8
  index : Nat
  size : Int
  flag : Bool

namespace Input

def contents (input : Input) : List UInt8 := (List.range input.index).map input.buffer

/-- What the keyboard listener stores: a tab takes four places. -/
def store (input : Input) (c : UInt8) : Input :=
  { input with
    buffer := Function.update input.buffer input.index c
    index := if c ≠ tab then input.index + 1 else input.index + 4 }

/-- What a backspace on the screen does to the input. -/
def rubOut (input : Input) : Input :=
  if 1 ≤ input.index then
    { input with
      buffer := Function.update input.buffer (input.index - 1) 0
      index := input.index - 1 }
  else input

end Input

/-- The display variables. -/
structure Screen where
  displayType : DisplayType
  displayMode : DisplayMode
  bufferWidth : Int
  bufferHeight : Int
  mainX : Int
  mainY : Int
deriving DecidableEq, Repr

/-- The globals of `gtty.c`. -/
structure Gtty where
  input : Input
  screen : Screen
  gttyEcho : Bool
  /-- Whether `kputchar` finds the device ready; if not it uses the serial line. -/
  ready : Bool

/-! ## Writing to the screen -/

/-- One round of the loops of `gtty_write_vga` and `gtty_write_vesa`, which differ
in how they move the cursor. -/
def put (stepBack : Screen → Screen) (move : Screen → UInt8 → Screen) (wrap : Screen → Screen)
    (gtty : Gtty) (c : UInt8) : Gtty :=
  if c = backspace then
    if 1 ≤ gtty.input.index then
      { gtty with input := gtty.input.rubOut, screen := wrap (stepBack gtty.screen) }
    else { gtty with screen := wrap gtty.screen }
  else { gtty with screen := wrap (move gtty.screen c) }

namespace Vga

def stepBack (screen : Screen) : Screen :=
  if 0 < screen.mainX then { screen with mainX := screen.mainX - 1 }
  else if 0 < screen.mainY then
    { screen with mainX := screen.bufferWidth - 1, mainY := screen.mainY - 1 }
  else screen

def wrap (screen : Screen) : Screen :=
  let screen :=
    if screen.bufferWidth - 1 < screen.mainX then
      { screen with mainX := 0, mainY := screen.mainY + 1 }
    else screen
  if screen.bufferHeight - 1 < screen.mainY then { screen with mainY := screen.mainY - 1 }
  else screen

/-- The recursive call that writes one space of a tab. -/
def space (screen : Screen) : Screen := wrap { screen with mainX := screen.mainX + 1 }

def move (screen : Screen) (c : UInt8) : Screen :=
  if c = newline then { screen with mainX := 0, mainY := screen.mainY + 1 }
  else if c = tab then space (space (space (space screen)))
  else if c = carriageReturn then { screen with mainX := 0 }
  else { screen with mainX := screen.mainX + 1 }

end Vga

namespace Vesa

def marginX : Int := 8
def marginYTop : Int := 44
def marginYBottom : Int := 8
def lineHeight : Int := 16
def lineWidth : Int := 8

def stepBack (screen : Screen) : Screen :=
  if 0 < screen.mainX then { screen with mainX := screen.mainX - lineWidth }
  else if 0 < screen.mainY then
    { screen with mainX := screen.bufferWidth - lineWidth, mainY := screen.mainY - lineHeight }
  else screen

def wrap (screen : Screen) : Screen :=
  let screen :=
    if screen.bufferWidth - marginX - 1 < screen.mainX then
      { screen with mainX := marginX, mainY := screen.mainY + lineHeight }
    else screen
  if screen.bufferHeight - (marginYBottom + lineHeight) < screen.mainY then
    { screen with mainY := screen.bufferHeight - (marginYBottom + lineHeight) }
  else screen

def space (screen : Screen) : Screen := wrap { screen with mainX := screen.mainX + lineWidth }

def move (screen : Screen) (c : UInt8) : Screen :=
  if c = newline then { screen with mainX := marginX, mainY := screen.mainY + lineHeight }
  else if c = tab then space (space (space (space screen)))
  else if c = carriageReturn then { screen with mainX := marginX }
  else { screen with mainX := screen.mainX + lineWidth }

end Vesa

/-- `gtty_write_vga`: pixels are refused. -/
def gttyWriteVga (gtty : Gtty) (bytes : List UInt8) : Gtty :=
  match gtty.screen.displayMode with
  | .px => gtty
  | .txt => bytes.foldl (put Vga.stepBack Vga.move Vga.wrap) gtty

/-- `gtty_write_vesa`: pixels go to the driver as they are. -/
def gttyWriteVesa (gtty : Gtty) (bytes : List UInt8) : Gtty :=
  match gtty.screen.displayMode with
  | .px => gtty
  | .txt => bytes.foldl (put Vesa.stepBack Vesa.move Vesa.wrap) gtty

def gttyDevWrite (gtty : Gtty) (bytes : List UInt8) : Gtty :=
  match gtty.screen.displayType with
  | .vesa => gttyWriteVesa gtty bytes
  | .vga => gttyWriteVga gtty bytes

/-- `kputchar`, which `kprintf("%c", c)` comes down to. -/
def kputchar (gtty : Gtty) (c : UInt8) : Gtty :=
  if gtty.ready then gttyDevWrite gtty [c] else gtty

/-! ## Input -/

/-- `KBD_VAL_TYPE_*`. -/
inductive KeyType where
  | regular
  | special
deriving DecidableEq, Repr

/-- The part of `gtty_keyboard_listener` before the echo. -/
def Input.listen (input : Input) (c : UInt8) : Input :=
  let input := if endsLine c then { input with flag := true } else input
  let input :=
    if (input.index : Int) < input.size ∧ c ≠ backspace ∧ ¬endsLine c then input.store c
    else input
  if input.size ≤ input.index then { input with flag := true } else input

def gttyKeyboardListener (gtty : Gtty) (type : KeyType) (c : UInt8) : Gtty :=
  match type with
  | .special => gtty
  | .regular =>
      let gtty := { gtty with input := gtty.input.listen c }
      if gtty.gttyEcho ∧ ¬endsLine c then kputchar gtty c else gtty

/-- `gtty_dev_read`; nothing is read where it returns -1. -/
def gttyDevRead (gtty : Gtty) (size : BitVec 32) : Option (List UInt8) × Gtty :=
  if gtty.input.flag ∧ size.toInt = gtty.input.size then
    (some gtty.input.contents,
      { gtty with
        input := {
          buffer := fun place => if place < gttyInputBufferLen then 0 else gtty.input.buffer place
          index := 0
          size := 0
          flag := false } })
  else (none, gtty)

/-- The `GTTY_CMD_*` commands that change the modelled state, with their argument. -/
inductive Command where
  | setMode (mode : DisplayMode)
  | clear
  | echoEnable
  | echoDisable
  | inputReady (size : BitVec 32)
deriving DecidableEq, Repr

/-- `gtty_dev_control`. `INPUT_READY` returns the flag it leaves. -/
def gttyDevControl (gtty : Gtty) : Command → Gtty
  | .setMode mode =>
      if gtty.screen.displayType = .vga ∧ mode = .px then gtty
      else { gtty with screen := { gtty.screen with displayMode := mode } }
  | .clear =>
      match gtty.screen.displayType with
      | .vesa => { gtty with
          screen := { gtty.screen with mainX := Vesa.marginX, mainY := Vesa.marginYTop } }
      | .vga => { gtty with screen := { gtty.screen with mainX := 0, mainY := 0 } }
  | .echoEnable => { gtty with gttyEcho := true }
  | .echoDisable => { gtty with gttyEcho := false }
  | .inputReady size =>
      if gtty.input.size = 0 then
        { gtty with input := { gtty.input with size := size.toInt, flag := false } }
      else gtty

/-- What can happen to the terminal between a request for input and the read. -/
inductive Event where
  | key (type : KeyType) (c : UInt8)
  | write (bytes : List UInt8)
  | control (command : Command)
deriving DecidableEq, Repr

def step (gtty : Gtty) : Event → Gtty
  | .key type c => gttyKeyboardListener gtty type c
  | .write bytes => gttyDevWrite gtty bytes
  | .control command => gttyDevControl gtty command

/-- What can happen to it at all. -/
inductive Activity where
  | event (event : Event)
  | read (size : BitVec 32)
deriving DecidableEq, Repr

def act (gtty : Gtty) : Activity → Gtty
  | .event event => step gtty event
  | .read size => (gttyDevRead gtty size).2

/-- What `initialise_gtty` leaves, whatever the display and the bytes of the fresh
buffer are. -/
structure Initialised (gtty : Gtty) : Prop where
  index : gtty.input.index = 0
  size : gtty.input.size = 0
  flag : gtty.input.flag = false

end Dbos.Terminal
