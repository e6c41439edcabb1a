/-!
# Text — line ends

Text that comes from a file may end its lines with a line feed, a carriage
return, or both. `unifyNewlines` turns all three into a line feed;
`unifyNewlines_of_no_return` says that a text without carriage returns is
left as it is.
-/

namespace LambdaShell

namespace Text

/-- Carriage returns, alone or before a line feed, become line feeds. -/
def unifyReturns : List Char → List Char
  | [] => []
  | '\r' :: '\n' :: cs => '\n' :: unifyReturns cs
  | '\r' :: cs => '\n' :: unifyReturns cs
  | c :: cs => c :: unifyReturns cs

/-- **A text with every line ended by a line feed.** -/
def unifyNewlines (s : String) : String := String.ofList (unifyReturns s.toList)

theorem unifyReturns_of_no_return {cs : List Char} (h : '\r' ∉ cs) : unifyReturns cs = cs := by
  induction cs with
  | nil => rfl
  | cons c cs ih =>
    have hc : c ≠ '\r' := fun e => h (e ▸ List.mem_cons_self)
    have hcs : '\r' ∉ cs := fun m => h (List.mem_cons_of_mem _ m)
    rw [unifyReturns]
    · rw [ih hcs]
    · exact fun _ e => absurd e hc
    · exact fun e => absurd e hc

theorem unifyNewlines_of_no_return {s : String} (h : '\r' ∉ s.toList) : unifyNewlines s = s := by
  rw [unifyNewlines, unifyReturns_of_no_return h, String.ofList_toList]

end Text

end LambdaShell
