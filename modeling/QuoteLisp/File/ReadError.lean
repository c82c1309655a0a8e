/-!
# Failures to read a file

The reasons for which a text file cannot be read, and their wording. Those that come from the
operating system carry its error number.
-/

namespace QuoteLisp

/-- Why the text of a file cannot be had. -/
inductive ReadError where
  | missing
  | notDirectory
  | isDirectory
  | nameTooLong
  /-- A null character in the path, which no file name can hold. -/
  | nullInPath
  /-- Contents that are not valid UTF-8. -/
  | notText
  /-- Any other refusal of the operating system. -/
  | refused (reason : String) (code : Nat)
  deriving DecidableEq, Repr

/-- The wording of a refusal by the operating system. -/
private def systemMessage (reason : String) (code : Nat) : String :=
  reason ++ " (os error " ++ code.repr ++ ")"

/-- The wording of a failure. -/
def ReadError.message : ReadError → String
  | missing => systemMessage "No such file or directory" 2
  | notDirectory => systemMessage "Not a directory" 20
  | isDirectory => systemMessage "Is a directory" 21
  | nameTooLong => systemMessage "File name too long" 36
  | nullInPath => "file name contained an unexpected NUL byte"
  | notText => "stream did not contain valid UTF-8"
  | refused reason code => systemMessage reason code

/-- The failure with an error number of the operating system. -/
def ReadError.ofCode (code : Nat) (reason : String) : ReadError :=
  match code with
  | 2 => missing
  | 13 => refused "Permission denied" 13
  | 20 => notDirectory
  | 21 => isDirectory
  | 36 => nameTooLong
  | _ => refused reason code

end QuoteLisp
