/-
`ConvertToUnicodeFromUtf8`: the private UTF-8 decoder of `utf8strdec.cpp`.

The source walks two pointers, one over the octets and one over a buffer with a
character for each octet.  Here the octets still to be read are the argument and the
characters written are the result; `first` is true while the octet pointer is where it
started, which is all that decides whether a truncated sequence is an error or just the
end of the text.

A four-octet form whose continuation octets are wrong moves both pointers on without
writing: the text then has whatever the buffer held, and the model says it has no
defined result.
-/
import OsSecurity.Asn1.Decoders

namespace OsSecurity

namespace TASN1DecUTF8String

/-- A sequence the octets end in the middle of. -/
def truncated (first : Bool) : Leaving Text := if first then leave KErrArgument else .ok []

def convertToUnicodeFromUtf8 (first : Bool) : Bytes → Leaving Text
  | [] => .ok []
  | b :: rest =>
    if b &&& 0x80 = 0 then do
      return b.toUInt16 :: (← convertToUnicodeFromUtf8 false rest)
    else if b &&& 0xe0 = 0xc0 then
      match rest with
      | c :: rest => do
        let character : UInt16 :=
          if c &&& 0xc0 = 0x80 then ((b &&& 0x1f).toUInt16 <<< 6) ||| (c &&& 0x3f).toUInt16
          else 0xfffd
        return character :: (← convertToUnicodeFromUtf8 false rest)
      | [] => truncated first
    else if b &&& 0xf0 = 0xe0 then
      match rest with
      | c :: d :: rest =>
        if c &&& 0xc0 = 0x80 then do
          let character : UInt16 := ((b &&& 0x0f).toUInt16 <<< 12) ||| ((c &&& 0x3f).toUInt16 <<< 6)
          let character : UInt16 :=
            if d &&& 0xc0 = 0x80 then character ||| (d &&& 0x3f).toUInt16 else character
          return character :: (← convertToUnicodeFromUtf8 false rest)
        else do
          return 0xfffd :: (← convertToUnicodeFromUtf8 false (d :: rest))
      | _ => truncated first
    else if b &&& 0xf8 = 0xf0 then
      match rest with
      -- the buffer has one character here, and the test for two comes first
      | [] => .ok []
      | c :: d :: e :: rest =>
        let character : UInt16 := ((b &&& 0x07).toUInt16 <<< 8) ||| ((c &&& 0x3f).toUInt16 <<< 2)
        let offset : UInt16 := character - (0x40 : UInt16)
        if c &&& 0xc0 = 0x80 ∧ 0x40 ≤ character ∧ offset < 0x400 ∧ d &&& 0xc0 = 0x80 then do
          let high := (0xd800 : UInt16) ||| (offset ||| ((d &&& 0x30) >>> 4).toUInt16)
          if e &&& 0xc0 = 0x80 then
            let low := (0xdc00 : UInt16) ||| (((d &&& 0x0f).toUInt16 <<< 6) ||| (e &&& 0x3f).toUInt16)
            return high :: low :: (← convertToUnicodeFromUtf8 false rest)
          else
            return high :: (← convertToUnicodeFromUtf8 false rest)
        else .error .undefined
      | _ => truncated first
    else do
      return 0xfffd :: (← convertToUnicodeFromUtf8 false rest)

def decodeDERL (aSource : TASN1DecGeneric) : Leaving Text := do
  convertToUnicodeFromUtf8 true (← aSource.getContentDER)

end TASN1DecUTF8String

end OsSecurity
