namespace Bakemono

-- The errors that callers compare with a known value, and the others by their text. The first one is
-- not an error of the source, but stands for an index or a slice which is out of range.
inductive Err
  | panic
  | eof
  | unexpectedEOF
  | shortWrite
  | cacheClosed
  | invalidated
  | indexFull
  | notResident (text : String)
  | other (text : String)
  deriving DecidableEq, Repr

end Bakemono
