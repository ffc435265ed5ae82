import IgLibs.CTime
import IgLibs.StringUtils

namespace IgLibs.BossCommon

open CString CTime Printf

-- A time as the format has it.
def time_text (m : Moment) : List UInt8 :=
  zero_padded 4 m.year ++ [45] ++ zero_padded 2 m.mon ++ [45] ++ zero_padded 2 m.mday ++ [32] ++
    zero_padded 2 m.hour ++ [58] ++ zero_padded 2 m.min ++ [58] ++ zero_padded 2 m.sec

section

variable {m : Moment} {rest : List UInt8}

theorem days_in_le (year mon : Nat) : Moment.days_in year mon ≤ 31 := by
  unfold Moment.days_in
  split_ifs <;> decide

end

end IgLibs.BossCommon
