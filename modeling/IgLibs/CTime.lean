import IgLibs.Calendar
import IgLibs.Printf

namespace IgLibs.CTime

open CString Printf

def epoch : Nat := (⟨1970, 1, 1, 0, 0, 0⟩ : Moment).seconds

def localtime (gmtoff t : Int) : Moment := Moment.clock (t + gmtoff + epoch).toNat

section

variable {b c : UInt8} {lo hi width i val : Nat} {rp fmt rest text : List UInt8} {tm : Moment}

end

end IgLibs.CTime
