import BaseOs.Str

set_option autoImplicit false

/-! # The real-time clock (`rtc.h`, `rtc.c`)

The rate selection of the driver. `frequencies` has 14 entries; `memory` is what follows it, since
the driver indexes the table with rates up to 15. -/

namespace BaseOs

def numFreq : Nat := 14
def maxRate : Nat := 6
def minRate : Nat := 15

/-- The driver's variables and register A of the clock. -/
structure Rtc where
  interruptFlag : Bool
  currRate : Nat
  currFrequency : UInt32
  regA : UInt8

def frequencyList : List UInt32 :=
  [32768, 16384, 8192, 4096, 2048, 1024, 512, 256, 128, 64, 32, 16, 8, 4]

/-- `frequencies[i]`, reading on past the end of the table. -/
def frequencies (memory : Nat → UInt32) (i : Nat) : UInt32 := frequencyList.getD i (memory i)

/-- The search loop of `set_frequency`: the index of the frequency, 14 if it is not listed. -/
def rateIndex (frequency : UInt32) : Nat := frequencyList.findIdx (· == frequency)

/-- The rate `set_frequency` settles on. -/
def rateFor (frequency : UInt32) : Nat :=
  let rate := rateIndex frequency + 1
  let rate := if rate > minRate then minRate else rate
  if rate < maxRate then maxRate else rate

/-- `set_frequency`. -/
def setFrequency (memory : Nat → UInt32) (rtc : Rtc) (frequency : UInt32) : Rtc :=
  { rtc with
    currRate := rateFor frequency
    currFrequency := frequencies memory (rateFor frequency)
    regA := (rtc.regA &&& 0xF0) ||| UInt8.ofNat (rateFor frequency) }

end BaseOs
