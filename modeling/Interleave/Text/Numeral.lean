import Interleave.Text.Letter

set_option autoImplicit false

namespace Interleave.Text

def numeric : Ranges := .ofCodes [
  0x1A1C81A1DD2B771D81A1CF7181A1EB1D1DE621A1EE1A1EE1A1DC641A1EE1A6BC1A38E1A28E1A2EC9321521F81A68,
  0x6B38E1A663128AE1A61A28E1A1AE1A2EE1A61A2CD1B2881A4DC1A2E1A61A3DF31DE92C1B9F1A18E1A49C2C18E1A1EE,
  0x1A2E1A38E1A4E1A2BA65881A2FC1A79DC81F4F1A481F1183E1A29A45AF31E193911C9912DD93E19EE2E19E7C1BAE52,
  0x33E26C191885E228222C862E519B194F739181EDE1A39A528E11813D44C3B5AD229791C5D7DD1A59CAE1A6AE1A1AE,
  0x2C61A1CE1A5EE1A1EE1A5AE1A3FB2C71A2A81A7C1A2883E28E71E845A1A2BE3F4AE1A61A68659A7591838181D8519B,
  0x2F48E1A189E711A28E1A1AE1A4CCE1A3EB891DF28DB2D1CE1A5CE1A6E1A18E1A3CB3D1AE1A1AAE1A1BD2B6CC1C19C,
  0x1A5BCB1D1F8A1F15D19C41317B1CAF1A288191B9C1A3EF1A7EE1A6CE1A4D886A29AD391DC2C1C2C2F8E1A5EBF935BD]

def isNumeral (c : Char) : Bool := numeric.has c

def isLetterOrNumeral (c : Char) : Bool := isLetter c || isNumeral c

end Interleave.Text
